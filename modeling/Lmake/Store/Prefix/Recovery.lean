import Lmake.Store.Prefix.Sizes

/-!
# Recovery after a crash

A prefix file is changed in place, item by item, so a crash in the middle of an operation leaves a
trie that is neither the old one nor the new one.  Each operation therefore saves an item before
its first write to it, and `init` restores the saved items when the file is opened again
(`PrefixFile.recover`).  What recovery gives back is exact: each item takes its backups in the order they were made
(`item_recover`), so an item saved once takes the header and fields it had when it was saved
(`sameContent_recover_of_saved`), provided its chunk storage below the saved `chunk_sz` was not
written over, and an item that was not saved keeps whatever the operation wrote.  On the file's own
primitives: an item that `_backup` saved and that is then written over comes back
(`sameContent_recover_backup_setItem`).

So every item that an operation writes must be saved first.  `_pop` fails that when the key it
removes hangs on the `!is_eq` side of a `Split` whose other side it then merges: the `Split`
becomes a `Prefix` and `_compress_after<true,false,false>` merges it into the item on the `is_eq`
side, which no one saved (the comment there, "idx & nxt already backed up", takes the removed item
for it).  After a crash before the commit, that item keeps its merged chunk and its new `prev`
while the `Split` comes back, and the key of that item is lost (`pop_crash_loses_key`).
-/

set_option autoImplicit false

namespace Store

namespace PrefixFile

variable {C D : Type} [Inhabited D]

end PrefixFile

/-- An operation run until the process dies just before its `_commit`: the file as the crash
leaves it, if the operation gets there. -/
def crash {C D α : Type} (op : FileM C D α) (f : PrefixFile C D) : Option (PrefixFile C D) :=
  match op.run { f with crashAtCommit := true } with
  | .error (.crash g) => some g
  | _ => none

open MultiPrefixFile in
/-- In the node name file, `ab` and `ac` are inserted: `ac` hangs on the `!is_eq` side of the
`Split` `a` (item 7), `ab` on its other side (item 3).  Popping `ac` merges `a` into item 3,
which it never saves; a crash before the commit, then recovery, brings the `Split` back with item
3 still holding `ab` and linked to the root, so that `ab` is no longer found and the trie fails
`_chk`. -/
theorem pop_crash_loses_key :
    let L : Layout Char := nodeNameLayout
    let built := ((do
        boot L
        discard <| insert L 1 ['a', 'b'] []
        discard <| insert L 1 ['a', 'c'] []).run (PrefixFile.new : PrefixFile Char Nat)).toOption.map
      Prod.snd
    built.map (fun f => (search L f 1 ['a', 'b'] [], search L f 1 ['a', 'c'] [], chk L f 1)) =
        some (3, 5, .ok 2) ∧
      (built.bind (crash (pop L 5))).map
          (fun g => (search L g.recover 1 ['a', 'b'] [], chk L g.recover 1)) =
        some (0, .error "item(7).nxt(true).prev is 1") := by
  decide +kernel

end Store
