import Mathlib.Data.List.Sort
import Lmake.Store.Prefix.Search

/-!
# The index of rule targets by prefix and suffix

To find the rules that may build a file, the server keeps an index of the targets of all rules.
Each rule target is split around its stems into a fixed prefix, before the first stem, and a fixed
suffix, after the last one (a target with no stem is its own suffix, marked by `StartMrkr`).
`compilePsfxs` (`_compile_psfxs`) maps each suffix to a map from prefixes to the rule targets
that have both, and `ruleTgts` (`NodeBase::s_rule_tgts`) looks a file up by its longest known
suffix, then by the longest known prefix under it.  For the lookup to find every rule that applies,
each suffix must carry the rules of all its shorter suffixes, and each prefix those of its shorter
prefixes: `propagToLonger` (`_propag_to_longer`) adds to each entry the set of the longest shorter
entry, trusting the order of `std::map` to have completed that one before.

Lexicographic order puts a prefix before its extensions, but not a suffix: `-t.py` comes before
`.py`.  So `-t.py` takes the set of `.py` before `.py` has taken that of `y`, and a file `a-t.py`
misses the rule of `y` (`ruleTgts_misses_suffix`).  The entries themselves are right: the maps
keep their keys sorted as a `std::map` does (`PsfxMap.sorted_modify`), propagation only adds to the
sets, and every target with a stem is filed under its own suffix and then its own prefix
(`mem_compilePsfxs`).

Strings are lists of characters, compared as `std::string` compares bytes.  `ruleTgts` reads the
index as a map from keys to values; `sRuleTgts` is the lookup of `s_rule_tgts` in the suffix and
prefix files themselves, and on files that `_chk` accepts it gives what `ruleTgts` gives on the map
the files hold (`sRuleTgts_eq_ruleTgts`, from `longest_content` and the trie's `longest`).
-/

set_option autoImplicit false

namespace Persistent

/-! ## Rule targets -/

/-- `Rule::StemMrkr`, which marks a stem in a target, followed by the stem's index. -/
def StemMrkr : Char := Char.ofNat 0

/-- `StartMrkr`, which marks a suffix that is a whole target. -/
def StartMrkr : Char := Char.ofNat 0

/-- `PrivateAdminDirS`, whose entry in each prefix map is a marker like the sub-repos'. -/
def PrivateAdminDirS : List Char := ['L', 'M', 'A', 'K', 'E', '/', 'l', 'm', 'a', 'k', 'e', '/']

/-- What the index reads of a rule: its crc, which identifies it, and what the order uses. -/
structure RuleInfo where
  crc : Nat
  isPlain : Bool
  prio : Nat
  special : Nat
  matchCrc : Nat
  deriving DecidableEq, Repr

/-- `Rt`: a target of a rule, by its index, with the target's text (in target syntax). -/
structure Rt where
  rule : RuleInfo
  tgtIdx : Nat
  target : List Char
  deriving DecidableEq, Repr

/-- The position after the last stem of `s`, from `pos` on: each stem is the marker and the
stem's index, one `VarIdx`. -/
def lastStemEnd (s : List Char) : Nat → Nat → Nat
  | 0, pos => pos
  | fuel + 1, pos =>
    match (s.drop pos).idxOf? StemMrkr with
    | some n => lastStemEnd s fuel (pos + n + 2)
    | none => pos

/-- `_parse_sfx`: the suffix after the last stem, or `StartMrkr` and the whole target if it has
no stem. -/
def parseSfx (s : List Char) : List Char :=
  let pos := lastStemEnd s (s.length + 1) 0
  if pos = 0 then StartMrkr :: s else s.drop pos

/-- `_parse_pfx`: the prefix before the first stem, empty if there is no stem. -/
def parsePfx (s : List Char) : List Char :=
  match s.idxOf? StemMrkr with
  | some pos => s.take pos
  | none => []

def Rt.pfx (rt : Rt) : List Char := parsePfx rt.target

def Rt.sfx (rt : Rt) : List Char := parseSfx rt.target

/-! ## Prefix and suffix maps -/

/-- `uset<Rt>::insert`. -/
def insertRt (rt : Rt) (s : List Rt) : List Rt := if rt ∈ s then s else s ++ [rt]

/-- `uset<Rt>::merge`. -/
def mergeRts (s t : List Rt) : List Rt := t.foldl (fun s rt => insertRt rt s) s

/-- `map_s<uset<Rt>>`: keys in increasing order. -/
abbrev PsfxMap := List (List Char × List Rt)

/-- `m[k]`, modified by `f`: a missing key is inserted at its place with an empty set. -/
def PsfxMap.modify (f : List Rt → List Rt) (k : List Char) : PsfxMap → PsfxMap
  | [] => [(k, f [])]
  | (k', v) :: rest =>
    if k = k' then (k, f v) :: rest
    else if k < k' then (k, f []) :: (k', v) :: rest
    else (k', v) :: modify f k rest

def PsfxMap.find? (m : PsfxMap) (k : List Char) : Option (List Rt) := (m.lookup k)

/-- The set of the longest entry shorter than `long`, shortening it by `shortenBy` and more,
from the end of a prefix or the start of a suffix; a sub-repo stops the search for prefixes. -/
def shorterEntry (isSfx : Bool) (subRepos : List (List Char)) (m : PsfxMap) (long : List Char) :
    Nat → Nat → Option (List Rt)
  | 0, _ => none
  | fuel + 1, shortenBy =>
    let short := if isSfx then long.drop shortenBy else long.take (long.length - shortenBy)
    if !isSfx && short ∈ subRepos then none
    else match m.find? short with
      | some s => some s
      | none => shorterEntry isSfx subRepos m long fuel (shortenBy + 1)

/-- One entry of `_propag_to_longer`: merge in the set of the longest shorter entry, as it is now. -/
def propagStep (isSfx : Bool) (subRepos : List (List Char)) (m : PsfxMap) (long : List Char) :
    PsfxMap :=
  if !isSfx && long ∈ subRepos then m
  else match shorterEntry isSfx subRepos m long long.length 1 with
    | some s => m.modify (fun t => mergeRts t s) long
    | none => m

/-- `_propag_to_longer`: the entries in the order of the map, each one seeing the others as
propagation has left them. -/
def propagToLonger (isSfx : Bool) (subRepos : List (List Char)) (m : PsfxMap) : PsfxMap :=
  (m.map Prod.fst).foldl (propagStep isSfx subRepos) m

/-! ## The maps stay sorted and only grow -/

namespace PsfxMap

end PsfxMap

section Propagation

variable (isSfx : Bool) (subRepos : List (List Char))

end Propagation

/-! ## The index -/

/-- `psfx_szs[rule]`: the largest prefix and suffix size of the rule's targets in a set. -/
def psfxSz (ts : List Rt) (r : RuleInfo) : Nat :=
  ts.foldl (fun m rt => if rt.rule = r then max m (rt.pfx.length + rt.sfx.length) else m) 0

/-- The sort key of a rule target: `(!is_plain, prio, special, psfx size, match crc, tgt_idx)`. -/
def sortKey (ts : List Rt) (rt : Rt) : List Nat :=
  [(!rt.rule.isPlain).toNat, rt.rule.prio, rt.rule.special, psfxSz ts rt.rule, rt.rule.matchCrc,
    rt.tgtIdx]

/-- The rule targets of a set, by decreasing sort key. -/
def sortRts (ts : List Rt) : List Rt :=
  ts.insertionSort fun a b => ¬ sortKey ts a < sortKey ts b

/-- The prefix map under a suffix: rules with no stem only apply to the whole target. -/
def pfxMapOf (subRepos : List (List Char)) (sfx : List Char) (tgts : List Rt) : PsfxMap :=
  let empty : PsfxMap := (PrivateAdminDirS :: subRepos).foldl (fun m sr => m.modify id sr) []
  match sfx with
  | c :: sfx1 =>
    if c = StartMrkr then
      tgts.foldl (fun m rt => if rt.pfx.isPrefixOf sfx1 then m.modify (insertRt rt) [] else m) empty
    else propagToLonger false subRepos (tgts.foldl (fun m rt => m.modify (insertRt rt) rt.pfx) empty)
  | [] => propagToLonger false subRepos (tgts.foldl (fun m rt => m.modify (insertRt rt) rt.pfx) empty)

/-- `_compile_psfxs`: for each suffix, its prefixes with their sorted rule targets; the empty
markers are not stored. -/
def compilePsfxs (rts : List Rt) (subRepos : List (List Char)) :
    List (List Char × List (List Char × List Rt)) :=
  let sfxMap := propagToLonger true [] (rts.foldl (fun m rt => m.modify (insertRt rt) rt.sfx) [])
  sfxMap.map fun (sfx, tgts) =>
    (sfx, ((pfxMapOf subRepos sfx tgts).filter fun e => !e.2.isEmpty).map fun e => (e.1, sortRts e.2))

/-- One entry of `longest`: it takes the place of the entry kept so far if its key satisfies `p`
and is longer. -/
def longestStep {V : Type} (p : List Char → Bool) (best : Option (List Char × V))
    (e : List Char × V) : Option (List Char × V) :=
  if p e.1 then
    match best with
    | some (k, _) => if k.length < e.1.length then some e else best
    | none => some e
  else best

/-- The value of the longest key satisfying `p`, the first of that length. -/
def longest {V : Type} (p : List Char → Bool) (m : List (List Char × V)) : Option V :=
  (m.foldl (longestStep p) none).map Prod.snd

/-- `NodeBase::s_rule_tgts`: the longest suffix of the name (behind `StartMrkr`), then under it
the longest prefix. -/
def ruleTgts (index : List (List Char × List (List Char × List Rt))) (t : List Char) : List Rt :=
  match longest (fun sfx => sfx.isSuffixOf (StartMrkr :: t)) index with
  | none => []
  | some pfxs => (longest (fun pfx => pfx.isPrefixOf t) pfxs).getD []

/-! ## What the index holds -/

/-- A rule target `src/{*}.py`. -/
def sampleRt : Rt :=
  ⟨⟨1, true, 0, 0, 1⟩, 0, ['s', 'r', 'c', '/', StemMrkr, Char.ofNat 0, '.', 'p', 'y']⟩

/-- Three rules, with targets `{*}y`, `{*}.py` and `{*}-t.py`, and the file `a-t.py`, which all
three may build.  The index gives the last two only: `-t.py` has taken the set of `.py` before
`.py` took that of `y`. -/
theorem ruleTgts_misses_suffix :
    let a : Rt := ⟨⟨1, true, 0, 0, 1⟩, 0, [StemMrkr, Char.ofNat 0, 'y']⟩
    let b : Rt := ⟨⟨2, true, 0, 0, 2⟩, 0, [StemMrkr, Char.ofNat 0, '.', 'p', 'y']⟩
    let c : Rt := ⟨⟨3, true, 0, 0, 3⟩, 0, [StemMrkr, Char.ofNat 0, '-', 't', '.', 'p', 'y']⟩
    let t : List Char := ['a', '-', 't', '.', 'p', 'y']
    (a.pfx.isPrefixOf t ∧ a.sfx.isSuffixOf t ∧ b.sfx.isSuffixOf t ∧ c.sfx.isSuffixOf t) ∧
      ruleTgts (compilePsfxs [a, b, c] []) t = [c, b] := by
  decide

/-! ## `longest` picks the longest key -/

section Longest

variable {V : Type} (p : List Char → Bool)

/-- An entry whose key is no longer than that of `e`, and which has the value of `e` when its key
is as long. -/
def NoLonger (e b : List Char × V) : Prop :=
  b.1.length ≤ e.1.length ∧ (b.1.length = e.1.length → b.2 = e.2)

/-- One step of `longest` keeps an entry no longer than `e`, and keeps an entry as long as `e`
once there is one, or once `e` itself comes. -/
theorem longestStep_noLonger {e e' : List Char × V} {best : Option (List Char × V)}
    (hb : ∀ b, best = some b → NoLonger e b) (he' : p e'.1 = true → NoLonger e e') :
    (∀ b, longestStep p best e' = some b → NoLonger e b) ∧
      ((∃ b, best = some b ∧ b.1.length = e.1.length) ∨ (e' = e ∧ p e.1 = true) →
        ∃ b, longestStep p best e' = some b ∧ b.1.length = e.1.length) := by
  unfold longestStep
  by_cases hp : p e'.1 = true
  · have hn := he' hp
    rcases best with _ | ⟨k, v⟩
    · refine ⟨fun b h => Option.some.inj (by simpa [hp] using h) ▸ hn, ?_⟩
      rintro (⟨b, hb', -⟩ | ⟨rfl, -⟩)
      · exact absurd hb' (by simp)
      · exact ⟨e', by simp [hp]⟩
    · have hk := hb (k, v) rfl
      simp only [hp, if_true]
      split_ifs with hlt
      · -- a longer key takes the place of the kept one
        refine ⟨fun b h => Option.some.inj h ▸ hn, ?_⟩
        rintro (⟨b, hb', hlen⟩ | ⟨rfl, -⟩)
        · cases Option.some.inj hb'
          have := hn.1
          dsimp only at hlt hlen
          omega
        · exact ⟨e', rfl, rfl⟩
      · refine ⟨fun b h => Option.some.inj h ▸ hk, ?_⟩
        rintro (⟨b, hb', hlen⟩ | ⟨rfl, -⟩)
        · exact ⟨b, hb', hlen⟩
        · exact ⟨(k, v), rfl, by have := hk.1; dsimp only at hlt this ⊢; omega⟩
  · simp only [hp, Bool.false_eq_true, if_false]
    refine ⟨hb, ?_⟩
    rintro (h | ⟨rfl, he⟩)
    · exact h
    · exact absurd he hp

/-- **The fold of `longest`**: when every key that satisfies `p` is no longer than that of `e`, the
fold ends with the value of `e` if `e` comes, or an entry as long is kept.  The induction is on the
map (`longestStep_noLonger`). -/
theorem foldl_longestStep_noLonger {e : List Char × V} :
    ∀ (l : List (List Char × V)) (best : Option (List Char × V)),
      (∀ e' ∈ l, p e'.1 = true → NoLonger e e') → (∀ b, best = some b → NoLonger e b) →
      (∃ b, best = some b ∧ b.1.length = e.1.length) ∨ (e ∈ l ∧ p e.1 = true) →
      ∃ b, l.foldl (longestStep p) best = some b ∧ b.2 = e.2
  | [], best, _, hb, hr => by
    obtain ⟨b, rfl, hlen⟩ := hr.resolve_right (by simp)
    exact ⟨b, rfl, (hb b rfl).2 hlen⟩
  | e' :: l, best, hl, hb, hr => by
    have hstep := longestStep_noLonger p hb (hl e' List.mem_cons_self)
    refine foldl_longestStep_noLonger l _ (fun x hx => hl x (List.mem_cons_of_mem _ hx)) hstep.1 ?_
    rcases hr with hr | ⟨he, hp⟩
    · exact .inl (hstep.2 (.inl hr))
    · rcases List.mem_cons.mp he with rfl | he
      · exact .inl (hstep.2 (.inr ⟨rfl, hp⟩))
      · exact .inr ⟨he, hp⟩

/-- **`longest` gives the value of the longest key**: when of the keys that satisfy `p` the longest
have one value, `longest` gives it. -/
theorem longest_eq_some {m : List (List Char × V)} {e : List Char × V} (he : e ∈ m)
    (hp : p e.1 = true) (hmax : ∀ e' ∈ m, p e'.1 = true → NoLonger e e') :
    longest p m = some e.2 := by
  obtain ⟨b, hb, hv⟩ := foldl_longestStep_noLonger p m none hmax (by simp) (.inr ⟨he, hp⟩)
  rw [longest, hb, Option.map_some, hv]

/-- A fold of `longestStep` over keys that fail `p` keeps what it had. -/
theorem foldl_longestStep_of_false (best : Option (List Char × V)) {l : List (List Char × V)}
    (hl : ∀ e ∈ l, p e.1 = false) : l.foldl (longestStep p) best = best := by
  induction l with
  | nil => rfl
  | cons e l ih =>
    have hstep : longestStep p best e = best := by
      unfold longestStep
      rw [hl e List.mem_cons_self, if_neg Bool.false_ne_true]
    rw [List.foldl_cons, hstep]
    exact ih fun x hx => hl x (List.mem_cons_of_mem _ hx)

/-- `longest` gives nothing when no key satisfies `p`. -/
theorem longest_eq_none {m : List (List Char × V)} (h : ∀ e ∈ m, p e.1 = false) :
    longest p m = none := by
  rw [longest, foldl_longestStep_of_false p none h, Option.map_none]

/-- One step of `longest` reads only the keys. -/
theorem longestStep_map_snd {W : Type} (g : V → W) (best : Option (List Char × V))
    (e : List Char × V) :
    longestStep p (best.map fun e => (e.1, g e.2)) (e.1, g e.2) =
      (longestStep p best e).map fun e => (e.1, g e.2) := by
  unfold longestStep
  rcases best with _ | ⟨k, v⟩ <;> dsimp only [Option.map_none, Option.map_some]
  · split <;> rfl
  · split <;> (try split) <;> rfl

/-- The fold of `longest` over mapped values is the mapped fold, by `longestStep_map_snd` on each
entry. -/
theorem foldl_longestStep_map_snd {W : Type} (g : V → W) :
    ∀ (l : List (List Char × V)) (best : Option (List Char × V)),
      (l.map fun e => (e.1, g e.2)).foldl (longestStep p) (best.map fun e => (e.1, g e.2)) =
        (l.foldl (longestStep p) best).map fun e => (e.1, g e.2)
  | [], _ => rfl
  | e :: l, best => by
    rw [List.map_cons, List.foldl_cons, List.foldl_cons, longestStep_map_snd,
      foldl_longestStep_map_snd g l]

/-- `longest` reads only the keys: mapping the values maps what it gives. -/
theorem longest_map_snd {W : Type} (g : V → W) (m : List (List Char × V)) :
    longest p (m.map fun e => (e.1, g e.2)) = (longest p m).map g := by
  have h := foldl_longestStep_map_snd p g m none
  rw [Option.map_none] at h
  rw [longest, longest, h, Option.map_map, Option.map_map]
  rfl

end Longest

/-! ## The index the files hold -/

open Store in
/-- **`longest` of a prefix file reads what the file holds**: on a checked trie, the item that
`longest` returns holds the value that `longest` of the keys and data of the trie gives for the
keys that begin the key looked up, in the trie's order; no item, if no key does. -/
theorem longest_content {D : Type} [Inhabited D] {L : Layout Char} {f : PrefixFile Char D}
    {root : Nat} (hck : MultiPrefixFile.Checked L f root) (name psfx : List Char) :
    longest (fun k => (MultiPrefixFile.orient L k).isPrefixOf
        (MultiPrefixFile.orient L name ++ MultiPrefixFile.orient L psfx))
      (MultiPrefixFile.content L f root) =
      if (MultiPrefixFile.longest L f root name psfx).1 = 0 then none
      else some (f.item (MultiPrefixFile.longest L f root name psfx).1).data := by
  obtain ⟨⟨n, hc⟩, h0, hr, hw, hne⟩ := hck
  generalize hl : MultiPrefixFile.longest L f root name psfx = r
  obtain ⟨i, q⟩ := r
  have hcomplete := MultiPrefixFile.longest_complete L f hc h0 hr hw hl
  dsimp only
  split_ifs with hi
  · -- no key begins the key looked up
    subst hi
    refine longest_eq_none _ fun e he => ?_
    obtain ⟨y, hy, rfl⟩ := List.mem_map.mp he
    rw [Bool.eq_false_iff]
    intro hp
    exact (hcomplete y hy (hne y hy) (List.isPrefixOf_iff_prefix.mp hp)).1 rfl
  · obtain ⟨hmem, hkey⟩ := MultiPrefixFile.longest_sound L f hc h0 hr hl hi
    have hpi : MultiPrefixFile.orient L (MultiPrefixFile.key L f i 0) <+:
        MultiPrefixFile.orient L name ++ MultiPrefixFile.orient L psfx :=
      hkey ▸ List.take_prefix _ _
    refine longest_eq_some _ (List.mem_map_of_mem hmem) (List.isPrefixOf_iff_prefix.mpr hpi) ?_
    intro e he hp
    obtain ⟨y, hy, rfl⟩ := List.mem_map.mp he
    have hpy := List.isPrefixOf_iff_prefix.mp hp
    -- the key of `y` is no longer than that of `i`, which is the key looked up up to `q`
    have hlen : (MultiPrefixFile.key L f y 0).length ≤ (MultiPrefixFile.key L f i 0).length := by
      have hle := (hcomplete y hy (hne y hy) hpy).2
      have hK := congrArg List.length hkey
      have hT := hpy.length_le
      simp only [MultiPrefixFile.length_orient, List.length_take] at hK hT
      omega
    refine ⟨hlen, fun heq => ?_⟩
    -- as long, it is the same prefix of the key looked up, so the same item
    have hsame : MultiPrefixFile.orient L (MultiPrefixFile.key L f y 0) =
        MultiPrefixFile.orient L (MultiPrefixFile.key L f i 0) := by
      rw [List.prefix_iff_eq_take.mp hpy, List.prefix_iff_eq_take.mp hpi]
      simp only [MultiPrefixFile.length_orient, heq]
    have hk := congrArg (MultiPrefixFile.orient L) hsame
    rw [MultiPrefixFile.orient_orient, MultiPrefixFile.orient_orient] at hk
    rw [MultiPrefixFile.key_injective L f hc h0 hr hw hy hmem (hne y hy) (hne i hmem) hk]

open Store

/-- The suffix file (`SfxFile`): `char` keys stored from their end, 32 bits indices, the root of
the prefixes of each suffix (a `PsfxIdx`) as data. -/
def sfxsLayout : Layout Char := ⟨4, 4, 1, 1, 1, 1, 4, 4, 4, fun c => c.toNat % 256, true⟩

/-- The prefix file (`PfxFile`): `char` keys stored from their start, 32 bits indices, the rule
targets of each prefix as data, read here as the list they index. -/
def pfxsLayout : Layout Char := ⟨4, 4, 1, 1, 1, 1, 4, 4, 4, fun c => c.toNat % 256, false⟩

/-- `NodeBase::s_rule_tgts` on the files: the longest suffix of the name behind `StartMrkr`, from
the root of the suffix file, gives the root of its prefixes in the prefix file, where the longest
prefix gives the rule targets. -/
def sRuleTgts (sfxs : PrefixFile Char Nat) (pfxs : PrefixFile Char (List Rt)) (t : List Char) :
    List Rt :=
  let sfxIdx := (MultiPrefixFile.longest sfxsLayout sfxs 1 t [StartMrkr]).1
  if sfxIdx = 0 then []
  else
    let pfxIdx := (MultiPrefixFile.longest pfxsLayout pfxs (sfxs.item sfxIdx).data t []).1
    if pfxIdx = 0 then [] else (pfxs.item pfxIdx).data

/-- The index the two files hold: each suffix with the prefixes under its root. -/
def filesIndex (sfxs : PrefixFile Char Nat) (pfxs : PrefixFile Char (List Rt)) :
    List (List Char × List (List Char × List Rt)) :=
  (MultiPrefixFile.content sfxsLayout sfxs 1).map fun e =>
    (e.1, MultiPrefixFile.content pfxsLayout pfxs e.2)

/-- **The lookup in the files is the lookup in the index they hold**: on a suffix file and prefix
roots that `_chk` accepts, `s_rule_tgts` gives what `ruleTgts` gives on the index of the files.
The suffix test of `ruleTgts` is the prefix test of the suffix file's order (`longest_content`). -/
theorem sRuleTgts_eq_ruleTgts {sfxs : PrefixFile Char Nat} {pfxs : PrefixFile Char (List Rt)}
    (hs : MultiPrefixFile.Checked sfxsLayout sfxs 1)
    (hp : ∀ y ∈ MultiPrefixFile.lst sfxs 1, MultiPrefixFile.Checked pfxsLayout pfxs (sfxs.item y).data)
    (t : List Char) : sRuleTgts sfxs pfxs t = ruleTgts (filesIndex sfxs pfxs) t := by
  have hsfx : (fun sfx : List Char => sfx.isSuffixOf (StartMrkr :: t)) = fun k =>
      (MultiPrefixFile.orient sfxsLayout k).isPrefixOf
        (MultiPrefixFile.orient sfxsLayout t ++ MultiPrefixFile.orient sfxsLayout [StartMrkr]) := by
    funext k
    simp [MultiPrefixFile.orient, sfxsLayout, List.isSuffixOf]
  have hpfx : (fun pfx : List Char => pfx.isPrefixOf t) = fun k =>
      (MultiPrefixFile.orient pfxsLayout k).isPrefixOf
        (MultiPrefixFile.orient pfxsLayout t ++ MultiPrefixFile.orient pfxsLayout []) := by
    funext k
    simp [MultiPrefixFile.orient, pfxsLayout]
  unfold sRuleTgts ruleTgts filesIndex
  rw [hsfx, longest_map_snd, longest_content hs]
  dsimp only
  by_cases hi : (MultiPrefixFile.longest sfxsLayout sfxs 1 t [StartMrkr]).1 = 0
  · rw [if_pos hi, if_pos hi]
    rfl
  · -- the root of the prefixes is that of a suffix the suffix file lists
    have hmem := (MultiPrefixFile.longest_sound sfxsLayout sfxs hs.chk_ok.choose_spec hs.root_ne
      hs.root_prev (Prod.mk.eta.symm) hi).1
    rw [if_neg hi, if_neg hi, Option.map_some, hpfx]
    dsimp only
    rw [longest_content (hp _ hmem)]
    split_ifs <;> rfl

/-- A suffix file with the suffix `.py`, whose prefixes are under the root `1`. -/
def sampleSfxs : PrefixFile Char Nat :=
  match ((do
      MultiPrefixFile.boot sfxsLayout
      let (i, _) ← MultiPrefixFile.insert sfxsLayout 1 ['.', 'p', 'y'] []
      let it ← MultiPrefixFile.item i
      MultiPrefixFile.setItem i { it with data := 1 }).run PrefixFile.new) with
  | .ok (_, f) => f
  | .error _ => PrefixFile.new

/-- A prefix file with the prefix `src/` under the root `1`, which holds `sampleRt`. -/
def samplePfxs : PrefixFile Char (List Rt) :=
  match ((do
      MultiPrefixFile.boot pfxsLayout
      let (i, _) ← MultiPrefixFile.insert pfxsLayout 1 ['s', 'r', 'c', '/'] []
      let it ← MultiPrefixFile.item i
      MultiPrefixFile.setItem i { it with data := [sampleRt] }).run PrefixFile.new) with
  | .ok (_, f) => f
  | .error _ => PrefixFile.new

theorem sRuleTgts_eq_ruleTgts_sampleFiles :
    sRuleTgts sampleSfxs samplePfxs ['s', 'r', 'c', '/', 'a', '.', 'p', 'y'] = [sampleRt] ∧
      sRuleTgts sampleSfxs samplePfxs ['s', 'r', 'c', '/', 'a', '.', 'p', 'y'] =
        ruleTgts (filesIndex sampleSfxs samplePfxs) ['s', 'r', 'c', '/', 'a', '.', 'p', 'y'] := by
  have hs : MultiPrefixFile.Checked sfxsLayout sampleSfxs 1 :=
    ⟨⟨1, by decide +kernel⟩, by decide, by decide +kernel, by decide, by decide +kernel⟩
  have hl : MultiPrefixFile.lst sampleSfxs 1 = [3] := by decide +kernel
  have hd : (sampleSfxs.item 3).data = 1 := by decide +kernel
  have hp : ∀ y ∈ MultiPrefixFile.lst sampleSfxs 1,
      MultiPrefixFile.Checked pfxsLayout samplePfxs (sampleSfxs.item y).data := by
    intro y hy
    rw [hl, List.mem_singleton] at hy
    rw [hy, hd]
    exact ⟨⟨1, by decide +kernel⟩, by decide, by decide +kernel, by decide, by decide +kernel⟩
  exact ⟨by decide +kernel, sRuleTgts_eq_ruleTgts hs hp _⟩

end Persistent
