import Lmake.Store.Prefix.File

/-!
# How many quanta an item takes

An item's chunk must fit in its quanta: `s_max_chunk_sz(sz,k,used)` is how many chars `sz` quanta
hold.  Items are kept as small as that allows: `s_min_sz(k,used,chunk_sz)` is the size `_chk`
demands of every item but the root, and `_minimize_sz` brings an item down to it, asserting that it
is not above the item's size.  `s_min_sz` counts down from `MaxSz` one quantum per `ItemSizeOf`
chars the chunk lacks to the largest one, so it agrees with `s_max_chunk_sz` when a char is a byte
(`sMinSz_le_iff_nodeName`, for the node name file).

The source supports wider chars (`LogSizeOfChar` shrinks the `chunk_sz` bit field for them), but
there a quantum holds fewer chars than `ItemSizeOf`, and `s_min_sz` asks for more quanta than
`s_max_chunk_sz` needs: with `char16_t` chars, 3 quanta hold a used `Prefix` of up to 19 chars, but
`s_min_sz` asks 4 from 12 chars on.  An item made smaller or fuller in place then no longer has its
minimum size: with `char16_t` chars, turning a 12-char `Terminal` into a `Prefix` fails the
assertion of `_minimize_sz` (`insert_char16_fails`), and merging a `Prefix` into a 13-char
`Terminal` leaves an item that `_chk` rejects (`pop_char16_non_minimum`).  The files of lmake use
`char`, and `RuleTgt` of 8 bytes, for which `s_min_sz` is always `MaxSz`.
-/

set_option autoImplicit false

namespace Store

/-- The node name file (`NodeNameFile`): `char` keys, 32 bits indices, a `Node` (32 bits) of data,
keys stored from their start. -/
def nodeNameLayout : Layout Char :=
  ⟨4, 4, 1, 1, 1, 1, 4, 4, 4, fun c => c.toNat % 256, false⟩

/-- A file of `char16_t` keys, 32 bits indices and no data. -/
def char16Layout : Layout Char :=
  ⟨4, 4, 2, 2, 2, 2, 0, 1, 4, fun c => c.toNat % 65536, false⟩

open MultiPrefixFile

/-- With `char16_t` chars, `a` 12 times is inserted as a used `Terminal` of 3 quanta (item 3).
Inserting it followed by `b` makes that item a `Prefix`, for which `s_min_sz` asks 4 quanta:
`_minimize_sz` fails its assertion. -/
theorem insert_char16_fails :
    let L : Layout Char := char16Layout
    let a12 := List.replicate 12 'a'
    ((do boot L; insert L 1 a12 []).run (PrefixFile.new : PrefixFile Char Unit)).map Prod.fst =
        .ok (3, true) ∧
      ((do
          boot L
          discard <| insert L 1 a12 []
          insert L 1 (a12 ++ ['b']) []).run (PrefixFile.new : PrefixFile Char Unit)).map Prod.fst =
        .error (.fail "min_sz()<=sz()") := by
  decide +kernel

/-- With `char16_t` chars, `ab` and `a` then `c` 13 times are inserted: a `Split` `a` with `b` on
one side and the 13 `c` on the other (item 6, 3 quanta).  Popping `ab` merges the `Split`, now a
`Prefix`, into item 6, whose 14 chars fit in its 3 quanta; but `s_min_sz` asks 4 and `_chk`
throws. -/
theorem pop_char16_non_minimum :
    let L : Layout Char := char16Layout
    let built := ((do
        boot L
        discard <| insert L 1 ['a', 'b'] []
        discard <| insert L 1 ('a' :: List.replicate 13 'c') []).run
          (PrefixFile.new : PrefixFile Char Unit)).toOption.map Prod.snd
    built.map (fun f => (search L f 1 ['a', 'b'] [], chk L f 1)) = some (3, .ok 2) ∧
      (built.bind fun f => ((pop L 3).run f).toOption.map Prod.snd).map (chk L · 1) =
        some (.error "item(6).sz is non-minimum : 3!=4") := by
  decide +kernel

end Store
