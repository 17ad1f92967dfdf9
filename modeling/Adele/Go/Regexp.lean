import Adele.Go.Utf8
import Mathlib.Data.List.Infix

/-!
# Leftmost-first matching and `ReplaceAllString`

The regular expressions of `helpers` (`src/unnamed/part_001:9-23`) are alternations of
sequences of character classes, each matched once, `*`, `*?` or `+`. Go's `regexp` returns the
match that starts leftmost and, among those, the one a backtracking matcher finds first
(leftmost-first, the package documentation); it reads the input rune by rune, with invalid UTF-8
read as `RuneError` of width one.

* `Item.run` tries the choices of one item in priority order (greedy: longest first; lazy:
  shortest first) and hands the rest of the input to the continuation, the rest of the sequence.
  `seqMatch` is the number of runes of the first match of a sequence found that way, and
  `Regexp.matchAt` tries the alternatives in order.
* `keepPieces` is the loop of `regexp.replaceAll` with an empty replacement: from the end of the
  last match, the leftmost position where a match starts; the text before it is kept and the
  match is dropped. An empty match drops nothing and the search moves one rune on, as in Go, so
  it is a position where nothing is dropped.
* `Regexp.matchString` is `MatchString`: some position starts a match.

Results:
* `replaceAllString_sublist` — the replacement only deletes bytes.
* `replaceAllString_single` — for a one-class expression the replacement deletes exactly the
  runes of the class.
* `matchString_head` — an expression whose alternatives all start with a class matched once
  matches only a string with a rune of that class.
-/

namespace Adele

namespace Regexp

open Utf8

/-- How an item repeats. -/
inductive Rep where
  /-- Exactly once. -/
  | one
  /-- `*`, greedy. -/
  | star
  /-- `*?`, lazy. -/
  | lazyStar
  /-- `+`, greedy. -/
  | plus
  deriving DecidableEq, Repr

/-- A character class (a predicate on runes) and its repetition. -/
structure Item where
  cls : Nat → Bool
  rep : Rep

/-- A greedy `c*`, then the continuation `k`: the longest run of `c` first. The result counts
the runes the whole match consumes. -/
def starGreedy (c : Nat → Bool) (k : List Nat → Option Nat) : List Nat → Option Nat
  | [] => k []
  | r :: rs => ((if c r then starGreedy c k rs else none).map (· + 1)).or (k (r :: rs))

/-- A lazy `c*?`, then the continuation `k`: the shortest run of `c` first. -/
def starLazy (c : Nat → Bool) (k : List Nat → Option Nat) : List Nat → Option Nat
  | [] => k []
  | r :: rs => (k (r :: rs)).or ((if c r then starLazy c k rs else none).map (· + 1))

/-- One item, then the continuation `k`. -/
def Item.run (it : Item) (k : List Nat → Option Nat) : List Nat → Option Nat :=
  match it.rep with
  | .one => fun rs =>
    match rs with
    | r :: rs => if it.cls r then (k rs).map (· + 1) else none
    | [] => none
  | .star => starGreedy it.cls k
  | .lazyStar => starLazy it.cls k
  | .plus => fun rs =>
    match rs with
    | r :: rs => if it.cls r then (starGreedy it.cls k rs).map (· + 1) else none
    | [] => none

/-- The number of runes of the first match of a sequence at the start of `rs`, in the order a
backtracking matcher tries the choices. -/
def seqMatch : List Item → List Nat → Option Nat
  | [], _ => some 0
  | it :: rest, rs => it.run (seqMatch rest) rs

end Regexp

/-- A compiled regular expression: its alternatives, in priority order. -/
structure Regexp where
  alts : List (List Regexp.Item)

namespace Regexp

open Utf8

/-- The length of the match that starts at the start of `rs`, if one does. -/
def matchAt (re : Regexp) (rs : List Nat) : Option Nat :=
  re.alts.foldr (fun alt acc => (seqMatch alt rs).or acc) none

/-- `MatchString`: some position of `s` starts a match. -/
def matchString (re : Regexp) (s : GoString) : Bool :=
  ((decode s).map Piece.rune).tails.any fun rs => (re.matchAt rs).isSome

/-- The pieces `ReplaceAllString(src, "")` keeps; `skip` counts the pieces of the current match
still to drop. -/
def keepPieces (re : Regexp) : List Piece → Nat → List Piece
  | [], _ => []
  | _ :: rest, skip + 1 => keepPieces re rest skip
  | pc :: rest, 0 =>
    match re.matchAt ((pc :: rest).map Piece.rune) with
    | some (n + 1) => keepPieces re rest n
    | _ => pc :: keepPieces re rest 0

/-- `re.ReplaceAllString(src, "")`. -/
def replaceAllString (re : Regexp) (src : GoString) : GoString :=
  (keepPieces re (decode src) 0).flatMap Piece.bytes

/-- The expression of one class, matched once, such as `[()&|!]`. -/
def single (c : Nat → Bool) : Regexp := ⟨[[⟨c, .one⟩]]⟩

/-! ## The replacement only deletes -/

theorem flatMap_sublist_flatMap {α β : Type} (f : α → List β) :
    ∀ {l₁ l₂ : List α}, List.Sublist l₁ l₂ → List.Sublist (l₁.flatMap f) (l₂.flatMap f)
  | _, _, .slnil => .slnil
  | _, _, .cons a h => by
    simpa using (flatMap_sublist_flatMap f h).trans (List.sublist_append_right (f a) _)
  | _, _, .cons₂ a h => by simpa using (flatMap_sublist_flatMap f h).append_left (f a)

theorem keepPieces_sublist (re : Regexp) :
    ∀ (l : List Piece) (skip : Nat), List.Sublist (keepPieces re l skip) l
  | [], _ => List.nil_sublist _
  | _ :: rest, skip + 1 => (keepPieces_sublist re rest skip).cons _
  | pc :: rest, 0 => by
    unfold keepPieces
    split
    · exact (keepPieces_sublist re rest _).cons _
    · exact (keepPieces_sublist re rest 0).cons₂ _

/-- **The replacement deletes bytes and adds none.** -/
theorem replaceAllString_sublist (re : Regexp) (src : GoString) :
    List.Sublist (re.replaceAllString src) src := by
  conv_rhs => rw [← flatMap_decode src]
  exact flatMap_sublist_flatMap _ (keepPieces_sublist re _ 0)

/-! ## One class -/

theorem matchAt_single (c : Nat → Bool) (r : Nat) (rs : List Nat) :
    (single c).matchAt (r :: rs) = if c r then some 1 else none := by
  by_cases h : c r <;> simp [matchAt, single, seqMatch, Item.run, h]

theorem keepPieces_single (c : Nat → Bool) :
    ∀ l : List Piece, keepPieces (single c) l 0 = l.filter fun pc => !c pc.rune
  | [] => rfl
  | pc :: rest => by
    unfold keepPieces
    rw [List.map_cons, matchAt_single]
    by_cases h : c pc.rune <;> simp [h, keepPieces_single c rest]

/-- **A one-class expression deletes exactly the runes of its class.** -/
theorem replaceAllString_single (c : Nat → Bool) (src : GoString) :
    (single c).replaceAllString src =
      ((decode src).filter fun pc => !c pc.rune).flatMap Piece.bytes := by
  rw [replaceAllString, keepPieces_single]

/-- No ASCII byte of the class survives a one-class replacement. -/
theorem not_mem_replaceAllString_single {c : Nat → Bool} {src : GoString} {b : UInt8}
    (hlt : b.toNat < 0x80) (hc : c b.toNat) : b ∉ (single c).replaceAllString src := by
  rw [replaceAllString_single]
  simp only [List.mem_flatMap, List.mem_filter, not_exists, not_and, Bool.not_eq_true']
  intro pc hpc hb
  rw [ascii_piece hpc.1 hb hlt] at hpc
  simp_all

theorem flatMap_filter_pieces {c : Nat → Bool} : ∀ P : List Piece,
    (∀ pc ∈ P, pc.bytes.filter (fun b => !c b.toNat) = if c pc.rune then [] else pc.bytes) →
      (P.filter fun pc => !c pc.rune).flatMap Piece.bytes =
        (P.flatMap Piece.bytes).filter fun b => !c b.toNat
  | [], _ => rfl
  | pc :: P, key => by
    rw [List.flatMap_cons, List.filter_append, key pc (List.mem_cons_self _ _),
      ← flatMap_filter_pieces P fun q hq => key q (List.mem_cons_of_mem _ hq)]
    by_cases h : c pc.rune <;> simp [h]

/-- **A class of ASCII runes is deleted byte by byte**: for such a class, the one-class
replacement deletes exactly the bytes of the class, whatever the UTF-8 around them. -/
theorem replaceAllString_single_ascii {c : Nat → Bool} (hc : ∀ r, c r → r < 0x80)
    (src : GoString) : (single c).replaceAllString src = src.filter fun b => !c b.toNat := by
  rw [replaceAllString_single]
  conv_rhs => rw [← flatMap_decode src]
  refine flatMap_filter_pieces _ fun pc hpc => ?_
  by_cases hlt : pc.rune < 0x80
  · obtain ⟨b, -, rfl⟩ := rune_lt_piece hpc hlt
    by_cases hb : c b.toNat <;> simp [hb]
  · have hnc : c pc.rune = false := Bool.eq_false_iff.mpr fun h => hlt (hc _ h)
    rw [if_neg (by simp [hnc]), List.filter_eq_self]
    intro b hb
    simp only [Bool.not_eq_true', Bool.not_eq_eq_eq_not, Bool.not_true]
    refine Bool.eq_false_iff.mpr fun h => hlt ?_
    rw [ascii_piece hpc hb (hc _ h)]
    exact hc _ h

/-! ## Where a match starts -/

theorem seqMatch_one_cons {c : Nat → Bool} {rest : List Item} {rs : List Nat}
    (h : (seqMatch (⟨c, .one⟩ :: rest) rs).isSome) : ∃ r ∈ rs.head?, c r := by
  cases rs with
  | nil => simp [seqMatch, Item.run] at h
  | cons r rs =>
    by_cases hc : c r
    · exact ⟨r, rfl, hc⟩
    · simp [seqMatch, Item.run, hc] at h

theorem matchAt_head {c : Nat → Bool} :
    ∀ {alts : List (List Item)}, (∀ alt ∈ alts, ∃ rest, alt = ⟨c, .one⟩ :: rest) →
      ∀ {rs : List Nat}, (matchAt ⟨alts⟩ rs).isSome → ∃ r ∈ rs.head?, c r
  | [], _, _, h => by simp [matchAt] at h
  | alt :: alts, hre, rs, h => by
    obtain ⟨rest, rfl⟩ := hre alt (List.mem_cons_self _ _)
    simp only [matchAt, List.foldr_cons] at h
    cases hs : seqMatch (⟨c, .one⟩ :: rest) rs with
    | some n => exact seqMatch_one_cons (by rw [hs]; rfl)
    | none =>
      rw [hs, Option.none_or] at h
      exact matchAt_head (fun a ha => hre a (List.mem_cons_of_mem _ ha)) h

/-- **A match needs a rune of the leading class.** When every alternative of `re` starts with
the class `c` matched once, `re` matches only a string with a rune of `c`. -/
theorem matchString_head {re : Regexp} {c : Nat → Bool}
    (hre : ∀ alt ∈ re.alts, ∃ rest, alt = ⟨c, .one⟩ :: rest) {s : GoString}
    (h : re.matchString s) : ∃ pc ∈ decode s, c pc.rune := by
  obtain ⟨rs, hrs, hm⟩ := List.any_eq_true.mp h
  obtain ⟨r, hr, hc⟩ := matchAt_head hre hm
  have hmem : r ∈ (decode s).map Piece.rune :=
    ((List.mem_tails _ _).mp hrs).subset (List.mem_of_mem_head? hr)
  obtain ⟨pc, hpc, rfl⟩ := List.mem_map.mp hmem
  exact ⟨pc, hpc, hc⟩

/-! ## Literal prefixes and a greedy star -/

/-- `rs` starts with one rune of each class of `cs`, in order. -/
def litMatch : List (Nat → Bool) → List Nat → Bool
  | [], _ => true
  | _ :: _, [] => false
  | c :: cs, r :: rs => c r && litMatch cs rs

theorem length_le_of_litMatch : ∀ {cs : List (Nat → Bool)} {rs : List Nat}, litMatch cs rs →
    cs.length ≤ rs.length
  | [], _, _ => Nat.zero_le _
  | _ :: _, _ :: _, h => by
    rw [litMatch, Bool.and_eq_true] at h
    simpa using length_le_of_litMatch h.2

/-- A literal match reads the first `cs.length` runes and nothing after them. -/
theorem litMatch_take : ∀ {cs : List (Nat → Bool)} {rs : List Nat}, litMatch cs rs →
    litMatch cs (rs.take cs.length)
  | [], _, _ => rfl
  | _ :: _, _ :: _, h => by
    rw [litMatch, Bool.and_eq_true] at h
    simp only [List.length_cons, List.take_succ_cons, litMatch, h.1, litMatch_take h.2,
      Bool.and_self]

theorem litMatch_append : ∀ {cs : List (Nat → Bool)} {rs : List Nat}, litMatch cs rs →
    ∀ z, litMatch cs (rs ++ z)
  | [], _, _, _ => rfl
  | _ :: _, _ :: _, h, z => by
    rw [litMatch, Bool.and_eq_true] at h
    rw [List.cons_append, litMatch, h.1, litMatch_append h.2 z, Bool.and_self]

/-- Each rune a literal match reads is in one of the classes. -/
theorem exists_of_litMatch : ∀ {cs : List (Nat → Bool)} {rs : List Nat}, litMatch cs rs →
    ∀ r ∈ rs.take cs.length, ∃ c ∈ cs, c r
  | [], _, _ => by simp
  | c :: _, _ :: _, h => by
    rw [litMatch, Bool.and_eq_true] at h
    simp only [List.length_cons, List.take_succ_cons, List.mem_cons, forall_eq_or_imp,
      exists_eq_or_imp, h.1, true_or, true_and]
    exact fun r hr => (exists_of_litMatch h.2 r hr).elim fun c' hc' => .inr ⟨c', hc'⟩

/-- Classes of ASCII runes read bytes: on the decoding of a string, invalid UTF-8 included, they
match exactly where they match on its bytes. -/
theorem litMatch_decode : ∀ {cs : List (Nat → Bool)}, (∀ c ∈ cs, ∀ r, c r → r < 0x80) →
    ∀ s : GoString, litMatch cs ((decode s).map Piece.rune) = litMatch cs (s.map UInt8.toNat)
  | [], _, _ => rfl
  | _ :: _, _, [] => rfl
  | c :: cs, hcs, b :: s => by
    have htail := litMatch_decode (fun c' h => hcs c' (List.mem_cons_of_mem _ h)) s
    by_cases hb : b.toNat < 0x80
    · rw [decode_ascii_cons hb, List.map_cons, List.map_cons, litMatch, litMatch, htail]
    have hc : ∀ r, c r → r < 0x80 := hcs c (List.mem_cons_self _ _)
    have h1 : c b.toNat = false := Bool.eq_false_iff.mpr fun h => hb (hc _ h)
    have h2 : c (decodeRune (b :: s)).1 = false := Bool.eq_false_iff.mpr fun h => by
      have hlt := hc _ h
      rw [decodeRune_of_lt hlt] at hlt
      exact hb hlt
    rw [decode_cons, List.map_cons, List.map_cons, litMatch, litMatch, h1, h2, Bool.false_and,
      Bool.false_and]

/-- Classes matched once each, then the rest of a sequence: the classes match a prefix, and the
rest runs after it. -/
theorem seqMatch_ones_append (rest : List Item) :
    ∀ (cs : List (Nat → Bool)) (rs : List Nat),
      seqMatch (cs.map (fun c => ⟨c, .one⟩) ++ rest) rs =
        if litMatch cs rs then (seqMatch rest (rs.drop cs.length)).map (· + cs.length) else none
  | [], rs => by simp [litMatch]
  | c :: cs, [] => by simp [seqMatch, Item.run, litMatch]
  | c :: cs, r :: rs => by
    have ih := seqMatch_ones_append rest cs rs
    simp only [List.map_cons, List.cons_append, seqMatch, Item.run, litMatch, List.length_cons,
      List.drop_succ_cons, List.append_eq]
    rw [ih]
    by_cases hc : c r <;> by_cases hl : litMatch cs rs <;>
      simp [hc, hl, Option.map_map, Function.comp_def, Nat.add_assoc]

/-- A greedy star at the end of a sequence takes the longest run of its class. -/
theorem seqMatch_star (c : Nat → Bool) :
    ∀ rs : List Nat, seqMatch [⟨c, .star⟩] rs = some (rs.takeWhile c).length
  | [] => rfl
  | r :: rs => by
    have ih := seqMatch_star c rs
    simp only [seqMatch, Item.run] at ih ⊢
    by_cases hc : c r <;> simp [starGreedy, hc, ih, List.takeWhile_cons]

/-- Dropping the rest of a match is dropping that many pieces. -/
theorem keepPieces_skip (re : Regexp) :
    ∀ (l : List Piece) (n : Nat), keepPieces re l n = keepPieces re (l.drop n) 0
  | [], n => by cases n <;> rfl
  | _ :: _, 0 => rfl
  | _ :: rest, n + 1 => by rw [keepPieces, keepPieces_skip re rest n]; rfl

end Regexp

end Adele
