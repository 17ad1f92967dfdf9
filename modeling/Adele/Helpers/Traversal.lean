import Adele.Helpers.Sanitize

/-!
# What `CleanPathTraversal` deletes

`pathTraversalRegex` (`\.\.[\\/]`, `src/unnamed/part_001:22`) is three classes of ASCII runes,
each matched once. Go's `regexp` reads runes, but classes of ASCII runes match on the decoding of
a string exactly where they match on its bytes, invalid UTF-8 included (`litMatch_decode`). So the
pass is a scan of bytes.

* `dropTraversals` is that scan, stated on bytes: left to right, each `../` or `..\` is dropped
  and the scan goes on after it.
* `dropTraversals_cons` states one step of the scan as the regexp pass takes it: the classes
  match at the head, or the head byte is kept.

Results:
* `keepPieces_pathTraversalRegex` — the regexp pass is `dropTraversals`.
* `cleanPathTraversal_eq_dropTraversals` — `pathTraversalRegex.ReplaceAllString` is
  `dropTraversals`, and `CleanPathTraversal` is `TrimSpace` after it, for every input.
-/

namespace Adele

namespace Helpers

open Regexp Utf8

/-- `pathTraversalRegex.ReplaceAllString(s, "")`, read on bytes: left to right, each `../` or
`..\` is dropped, and the scan goes on after it. -/
def dropTraversals : GoString → GoString
  | b :: b1 :: c :: rest =>
    if b = 0x2E ∧ b1 = 0x2E ∧ (c = 0x2F ∨ c = 0x5C) then dropTraversals rest
    else b :: dropTraversals (b1 :: c :: rest)
  | b :: rest => b :: dropTraversals rest
  | [] => []
termination_by s => s.length

/-- The classes of `pathTraversalRegex`, in order. -/
def traversalClasses : List (Nat → Bool) :=
  [fun r => r == 0x2E, fun r => r == 0x2E, fun r => r = 0x5C || r = 0x2F]

theorem pathTraversalRegex_eq :
    pathTraversalRegex = ⟨[traversalClasses.map fun c => ⟨c, .one⟩]⟩ := rfl

theorem traversalClasses_ascii : ∀ c ∈ traversalClasses, ∀ r, c r → r < 0x80 := by
  simp only [traversalClasses, List.mem_cons, List.not_mem_nil, or_false]
  rintro c (rfl | rfl | rfl) r hr <;> simp at hr <;> omega

/-- A match of `pathTraversalRegex` is its three classes, one rune each. -/
theorem matchAt_pathTraversalRegex (rs : List Nat) :
    pathTraversalRegex.matchAt rs = if litMatch traversalClasses rs then some 3 else none := by
  have h := seqMatch_ones_append [] traversalClasses rs
  rw [List.append_nil] at h
  rw [pathTraversalRegex_eq]
  simp only [matchAt, List.foldr_cons, List.foldr_nil, Option.or_none, h]
  split <;> rfl

theorem uint8_eq_iff_toNat {a b : UInt8} : a = b ↔ a.toNat = b.toNat :=
  ⟨congrArg _, UInt8.toNat.inj⟩

/-- One step of the scan, as the regexp pass takes it. -/
theorem dropTraversals_cons (b : UInt8) (rest : GoString) :
    dropTraversals (b :: rest) =
      if litMatch traversalClasses ((b :: rest).map UInt8.toNat) then dropTraversals (rest.drop 2)
      else b :: dropTraversals rest := by
  rcases rest with _ | ⟨b1, _ | ⟨c, rest'⟩⟩
  · simp [dropTraversals, litMatch, traversalClasses]
  · simp [dropTraversals, litMatch, traversalClasses]
  · simp only [dropTraversals, List.map_cons, litMatch, traversalClasses, List.drop_succ_cons,
      List.drop_zero, Bool.and_true, Bool.and_eq_true, beq_iff_eq, Bool.or_eq_true,
      decide_eq_true_eq, uint8_eq_iff_toNat, UInt8.reduceToNat]
    split_ifs <;> first | rfl | omega

/-- Bytes that are not ASCII pass the scan unchanged. -/
theorem dropTraversals_append : ∀ {xs : GoString}, (∀ x ∈ xs, 0x80 ≤ x.toNat) →
    ∀ ys, dropTraversals (xs ++ ys) = xs ++ dropTraversals ys
  | [], _, _ => rfl
  | x :: xs, h, ys => by
    have hx := h x (List.mem_cons_self _ _)
    rw [List.cons_append, dropTraversals_cons, if_neg, List.cons_append,
      dropTraversals_append (fun y hy => h y (List.mem_cons_of_mem _ hy))]
    simp only [List.map_cons, litMatch, traversalClasses, Bool.and_eq_true, beq_iff_eq]
    omega

/-- **The regexp pass is the byte scan.** `pathTraversalRegex.ReplaceAllString(s, "")` is
`dropTraversals s`, for every string, invalid UTF-8 included. -/
theorem keepPieces_pathTraversalRegex : ∀ s : GoString,
    (keepPieces pathTraversalRegex (decode s) 0).flatMap Piece.bytes = dropTraversals s
  | [] => by rw [dropTraversals]; rfl
  | b :: rest => by
    have hlit := litMatch_decode traversalClasses_ascii (b :: rest)
    by_cases hm : litMatch traversalClasses ((b :: rest).map UInt8.toNat)
    · obtain ⟨b1, c, rest', rfl⟩ : ∃ b1 c rest', rest = b1 :: c :: rest' := by
        rcases rest with _ | ⟨b1, _ | ⟨c, rest'⟩⟩
        · simp [litMatch, traversalClasses] at hm
        · simp [litMatch, traversalClasses] at hm
        · exact ⟨b1, c, rest', rfl⟩
      have hbytes := hm
      simp only [List.map_cons, litMatch, traversalClasses, Bool.and_true, Bool.and_eq_true,
        beq_iff_eq, Bool.or_eq_true, decide_eq_true_eq] at hbytes
      obtain ⟨hb, hb1, hc⟩ := hbytes
      have hd : decode (b :: b1 :: c :: rest') =
          ⟨b.toNat, [b]⟩ :: ⟨b1.toNat, [b1]⟩ :: ⟨c.toNat, [c]⟩ :: decode rest' := by
        rw [decode_ascii_cons (by omega), decode_ascii_cons (by omega),
          decode_ascii_cons (by omega)]
      rw [hd] at hlit ⊢
      rw [keepPieces, matchAt_pathTraversalRegex, if_pos (hlit.trans hm)]
      dsimp only
      rw [keepPieces, keepPieces, dropTraversals_cons, if_pos hm]
      exact keepPieces_pathTraversalRegex rest'
    · have hw := decodeRune_width b rest
      rw [decode_cons] at hlit ⊢
      rw [keepPieces, matchAt_pathTraversalRegex, if_neg (by rw [hlit]; exact hm)]
      dsimp only
      rw [List.flatMap_cons,
        keepPieces_pathTraversalRegex ((b :: rest).drop (decodeRune (b :: rest)).2)]
      rcases decodeRune_shape b rest with ⟨-, h⟩ | ⟨-, h⟩ | ⟨-, -, -, hbig⟩
      · rw [h, dropTraversals_cons, if_neg hm]
        rfl
      · rw [h, dropTraversals_cons, if_neg hm]
        rfl
      · conv_rhs => rw [← List.take_append_drop (decodeRune (b :: rest)).2 (b :: rest)]
        exact (dropTraversals_append hbig _).symm
termination_by s => s.length
decreasing_by
  all_goals simp_wf
  all_goals subst_vars
  all_goals try simp only [List.length_cons]
  all_goals omega

/-- **`CleanPathTraversal` drops each `../` and `..\` met in one left-to-right scan of the bytes,
then trims**, for every input, invalid UTF-8 included: `pathTraversalRegex.ReplaceAllString(s, "")`
is that scan, and `CleanPathTraversal` trims what it leaves. -/
theorem cleanPathTraversal_eq_dropTraversals (s : GoString) :
    pathTraversalRegex.replaceAllString s = dropTraversals s ∧
      cleanPathTraversal s = Strings.trimSpace (dropTraversals s) := by
  have hre : pathTraversalRegex.replaceAllString s = dropTraversals s :=
    keepPieces_pathTraversalRegex s
  refine ⟨hre, ?_⟩
  by_cases hs : s = []
  · subst hs
    rw [dropTraversals]
    rfl
  simp only [cleanPathTraversal, hs, if_false, hre]

end Helpers

end Adele
