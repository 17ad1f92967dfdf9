import Adele.Go.Regexp

/-!
# What a match is: the language of an expression

Model of the meaning Go's `regexp` gives an expression of the fragment the helpers use
(`src/unnamed/part_001:9-23`): alternatives of sequences of classes, each matched once, `*`, `*?`
or `+`. `Regexp.lean` models how the package searches for a match, trying the choices in
priority order; this module says what it searches for, and proves that the search finds it.

* `Item.accepts` is the language of one item: one rune of its class, any run of such runes (`*`
  and `*?`, which differ only in the order they are tried), or a non-empty run (`+`).
  `seqAccepts` concatenates the languages of a sequence, and `Regexp.accepts` is the union over
  the alternatives. All three are computable.
* The matcher is written in continuation-passing style. `Returns k L` says a continuation `k`
  returns only lengths of prefixes in `L`, and `Finds k L` that it returns some length whenever
  a prefix is in `L`. Each kind of item keeps both properties, with `L` grown by the item's
  language in front.

Results:
* `seqMatch_returns`, `seqMatch_finds` — the backtracking search of a sequence is sound and
  complete for its language.
* `matchAt_isSome_iff` — a match starts at a position exactly when some prefix of what follows is
  in the language.
* `matchString_iff` — `MatchString` "reports whether the string s contains any match" (the Go
  documentation): it is true exactly when some run of consecutive runes of the string, invalid
  UTF-8 read as `RuneError`, is in the language.
* `replaceAllString_scan` — for an expression without the empty word (every expression of the
  helpers), `ReplaceAllString(src, "")` keeps what a left-to-right scan keeps (`Scan`): a piece
  stays only where no word of the language starts, and each run it drops is a word of the
  language. Which word is dropped where several start is the priority order, which `Scan` leaves
  open.
-/

namespace Adele

namespace Regexp

/-- The language of one item. -/
def Item.accepts (it : Item) (w : List Nat) : Bool :=
  match it.rep with
  | .one => w.length == 1 && w.all it.cls
  | .star | .lazyStar => w.all it.cls
  | .plus => !w.isEmpty && w.all it.cls

/-- The language of a sequence: the word splits into one word of each item's language. -/
def seqAccepts : List Item → List Nat → Bool
  | [], w => w.isEmpty
  | it :: rest, w =>
    (List.range (w.length + 1)).any fun i => it.accepts (w.take i) && seqAccepts rest (w.drop i)

end Regexp

/-- The language of an expression: the union of its alternatives. -/
def Regexp.accepts (re : Regexp) (w : List Nat) : Bool :=
  re.alts.any fun alt => Regexp.seqAccepts alt w

namespace Regexp

open Utf8

theorem seqAccepts_cons {it : Item} {rest : List Item} {w : List Nat} :
    seqAccepts (it :: rest) w ↔ ∃ u v, w = u ++ v ∧ it.accepts u ∧ seqAccepts rest v := by
  simp only [seqAccepts, List.any_eq_true, List.mem_range, Bool.and_eq_true]
  constructor
  · rintro ⟨i, -, hu, hv⟩
    exact ⟨_, _, (List.take_append_drop i w).symm, hu, hv⟩
  · rintro ⟨u, v, rfl, hu, hv⟩
    refine ⟨u.length, by simp only [List.length_append]; omega, ?_⟩
    simpa using ⟨hu, hv⟩

/-! ## Continuations -/

/-- `k` returns only the lengths of prefixes in `L`. -/
def Returns (k : List Nat → Option Nat) (L : List Nat → Prop) : Prop :=
  ∀ rs n, k rs = some n → ∃ v t, rs = v ++ t ∧ n = v.length ∧ L v

/-- `k` returns a length wherever a prefix is in `L`. -/
def Finds (k : List Nat → Option Nat) (L : List Nat → Prop) : Prop :=
  ∀ v t, L v → (k (v ++ t)).isSome

section Star

variable {c : Nat → Bool} {k : List Nat → Option Nat} {L : List Nat → Prop}

/-- A run of `c` in front of a prefix in `L`. -/
theorem returns_cons_run {r : Nat} {rs : List Nat} {n : Nat} (hr : c r)
    (h : ∃ u v t, rs = u ++ v ++ t ∧ n = u.length + v.length ∧ (∀ x ∈ u, c x) ∧ L v) :
    ∃ u v t, r :: rs = u ++ v ++ t ∧ n + 1 = u.length + v.length ∧ (∀ x ∈ u, c x) ∧ L v := by
  obtain ⟨u, v, t, rfl, rfl, hu, hv⟩ := h
  exact ⟨r :: u, v, t, rfl, by simp only [List.length_cons]; omega,
    List.forall_mem_cons.mpr ⟨hr, hu⟩, hv⟩

/-- The empty run in front of a prefix in `L`. -/
theorem returns_nil_run (hk : Returns k L) {rs : List Nat} {n : Nat} (h : k rs = some n) :
    ∃ u v t, rs = u ++ v ++ t ∧ n = u.length + v.length ∧ (∀ x ∈ u, c x) ∧ L v :=
  let ⟨v, t, hrs, hn, hv⟩ := hk rs n h
  ⟨[], v, t, by simpa using hrs, by simpa using hn, by simp, hv⟩

theorem starGreedy_returns (hk : Returns k L) : ∀ rs n, starGreedy c k rs = some n →
    ∃ u v t, rs = u ++ v ++ t ∧ n = u.length + v.length ∧ (∀ x ∈ u, c x) ∧ L v
  | [], _, h => returns_nil_run hk h
  | r :: rs, n, h => by
    rcases Option.or_eq_some.mp h with h | ⟨-, h⟩
    · by_cases hr : c r
      · simp only [hr, if_true, Option.map_eq_some'] at h
        obtain ⟨n', h', rfl⟩ := h
        exact returns_cons_run hr (starGreedy_returns hk rs n' h')
      · simp [hr] at h
    · exact returns_nil_run hk h

theorem starLazy_returns (hk : Returns k L) : ∀ rs n, starLazy c k rs = some n →
    ∃ u v t, rs = u ++ v ++ t ∧ n = u.length + v.length ∧ (∀ x ∈ u, c x) ∧ L v
  | [], _, h => returns_nil_run hk h
  | r :: rs, n, h => by
    rcases Option.or_eq_some.mp h with h | ⟨-, h⟩
    · exact returns_nil_run hk h
    · by_cases hr : c r
      · simp only [hr, if_true, Option.map_eq_some'] at h
        obtain ⟨n', h', rfl⟩ := h
        exact returns_cons_run hr (starLazy_returns hk rs n' h')
      · simp [hr] at h

theorem starGreedy_finds (hk : Finds k L) : ∀ u v t, (∀ x ∈ u, c x) → L v →
    (starGreedy c k (u ++ v ++ t)).isSome
  | [], v, t, _, hv => by
    have := hk v t hv
    rw [List.nil_append]
    cases hvt : v ++ t with
    | nil => simpa [starGreedy, hvt] using this
    | cons r rs => rw [hvt] at this; simp [starGreedy, this]
  | r :: u, v, t, hu, hv => by
    have ih := starGreedy_finds hk u v t (fun x hx => hu x (List.mem_cons_of_mem r hx)) hv
    simp only [List.cons_append, starGreedy, hu r (List.mem_cons_self r u), if_true,
      Option.isSome_or, Option.isSome_map', List.append_eq, ih, Bool.true_or]

theorem starLazy_finds (hk : Finds k L) : ∀ u v t, (∀ x ∈ u, c x) → L v →
    (starLazy c k (u ++ v ++ t)).isSome
  | [], v, t, _, hv => by
    have := hk v t hv
    rw [List.nil_append]
    cases hvt : v ++ t with
    | nil => simpa [starLazy, hvt] using this
    | cons r rs => rw [hvt] at this; simp [starLazy, this]
  | r :: u, v, t, hu, hv => by
    have ih := starLazy_finds hk u v t (fun x hx => hu x (List.mem_cons_of_mem r hx)) hv
    simp only [List.cons_append, starLazy, hu r (List.mem_cons_self r u), if_true,
      Option.isSome_or, Option.isSome_map', List.append_eq, ih, Bool.or_true]

end Star

section Items

variable {k : List Nat → Option Nat} {L : List Nat → Prop}

/-- A prefix of the run of `it`, then a prefix in `L`, as one prefix of their concatenation. -/
theorem returns_of_split {A : List Nat → Prop} {rs : List Nat} {n : Nat}
    (h : ∃ u v t, rs = u ++ v ++ t ∧ n = u.length + v.length ∧ A u ∧ L v) :
    ∃ w t, rs = w ++ t ∧ n = w.length ∧ ∃ u v, w = u ++ v ∧ A u ∧ L v :=
  let ⟨u, v, t, hrs, hn, hu, hv⟩ := h
  ⟨u ++ v, t, hrs, by rw [hn, List.length_append], u, v, rfl, hu, hv⟩

/-- **One item, then a continuation, is sound** for the item's language followed by the
continuation's. -/
theorem run_returns (it : Item) (hk : Returns k L) :
    Returns (it.run k) fun w => ∃ u v, w = u ++ v ∧ it.accepts u ∧ L v := by
  rcases it with ⟨c, _ | _ | _ | _⟩ <;> intro rs n h <;>
    simp only [Item.run, Item.accepts, List.all_eq_true] at h ⊢
  · rcases rs with _ | ⟨r, rs⟩
    · cases h
    by_cases hr : c r
    · simp only [hr, if_true, Option.map_eq_some'] at h
      obtain ⟨n', h', rfl⟩ := h
      obtain ⟨v, t, rfl, rfl, hv⟩ := hk rs n' h'
      exact ⟨r :: v, t, rfl, rfl, [r], v, rfl, by simp [hr], hv⟩
    · simp [hr] at h
  · exact returns_of_split (starGreedy_returns hk rs n h)
  · exact returns_of_split (starLazy_returns hk rs n h)
  · rcases rs with _ | ⟨r, rs⟩
    · cases h
    by_cases hr : c r
    · simp only [hr, if_true, Option.map_eq_some'] at h
      obtain ⟨n', h', rfl⟩ := h
      obtain ⟨u, v, t, rfl, rfl, hu, hv⟩ := starGreedy_returns hk rs n' h'
      refine ⟨r :: u ++ v, t, rfl, by simp only [List.length_append, List.length_cons]; omega,
        r :: u, v, rfl, ?_, hv⟩
      simpa [hr] using hu
    · simp [hr] at h

/-- **One item, then a continuation, is complete** for the item's language followed by the
continuation's. -/
theorem run_finds (it : Item) (hk : Finds k L) :
    Finds (it.run k) fun w => ∃ u v, w = u ++ v ∧ it.accepts u ∧ L v := by
  rintro _ t ⟨u, v, rfl, hu, hv⟩
  rcases it with ⟨c, _ | _ | _ | _⟩ <;>
    simp only [Item.run, Item.accepts, List.all_eq_true, Bool.and_eq_true, beq_iff_eq,
      Bool.not_eq_true', List.isEmpty_eq_false] at hu ⊢
  · obtain ⟨hlen, hc⟩ := hu
    obtain ⟨r, rfl⟩ := List.length_eq_one.mp hlen
    simp [hc r (List.mem_singleton_self r), hk v t hv]
  · exact starGreedy_finds hk u v t hu hv
  · exact starLazy_finds hk u v t hu hv
  · obtain ⟨hne, hc⟩ := hu
    obtain ⟨r, u, rfl⟩ := List.exists_cons_of_ne_nil hne
    simp only [List.cons_append, hc r (List.mem_cons_self r u), if_true, Option.isSome_map']
    exact starGreedy_finds hk u v t (fun x hx => hc x (List.mem_cons_of_mem r hx)) hv

end Items

/-! ## Sequences and expressions -/

/-- **The search of a sequence is sound**: a length it returns is that of a prefix in the
sequence's language. -/
theorem seqMatch_returns : ∀ items : List Item, Returns (seqMatch items) (seqAccepts items ·)
  | [] => fun rs _ h => ⟨[], rs, rfl, (Option.some.inj h).symm, rfl⟩
  | it :: rest => fun rs n h =>
    let ⟨w, t, hrs, hn, hw⟩ := run_returns it (seqMatch_returns rest) rs n h
    ⟨w, t, hrs, hn, seqAccepts_cons.mpr hw⟩

/-- **The search of a sequence is complete**: it returns a length wherever a prefix is in the
sequence's language, whatever the order it tries the choices in. -/
theorem seqMatch_finds : ∀ items : List Item, Finds (seqMatch items) (seqAccepts items ·)
  | [] => fun _ _ _ => rfl
  | it :: rest => fun w t hw => run_finds it (seqMatch_finds rest) w t (seqAccepts_cons.mp hw)

theorem seqMatch_isSome_iff (items : List Item) (rs : List Nat) :
    (seqMatch items rs).isSome ↔ ∃ w, w <+: rs ∧ seqAccepts items w := by
  constructor
  · intro h
    obtain ⟨n, hn⟩ := Option.isSome_iff_exists.mp h
    obtain ⟨w, t, rfl, -, hw⟩ := seqMatch_returns items rs n hn
    exact ⟨w, List.prefix_append w t, hw⟩
  · rintro ⟨w, ⟨t, rfl⟩, hw⟩
    exact seqMatch_finds items w t hw

/-- **A match starts at a position exactly when some prefix of what follows is in the
language.** -/
theorem matchAt_isSome_iff (re : Regexp) (rs : List Nat) :
    (re.matchAt rs).isSome ↔ ∃ w, w <+: rs ∧ re.accepts w := by
  rcases re with ⟨alts⟩
  simp only [matchAt, Regexp.accepts]
  induction alts with
  | nil => simp
  | cons alt alts ih =>
    simp only [List.foldr_cons, Option.isSome_or, Bool.or_eq_true, seqMatch_isSome_iff, ih,
      List.any_cons, and_or_left, exists_or]

/-- **`MatchString` is true exactly when the string contains a word of the language**: some run
of consecutive runes, read as the package reads them, invalid UTF-8 as `RuneError`. -/
theorem matchString_iff (re : Regexp) (s : GoString) :
    re.matchString s ↔ ∃ w, w <:+: (decode s).map Piece.rune ∧ re.accepts w := by
  simp only [matchString, List.any_eq_true, List.mem_tails, matchAt_isSome_iff,
    List.infix_iff_prefix_suffix]
  constructor
  · rintro ⟨rs, hrs, w, hw, h⟩
    exact ⟨w, ⟨rs, hw, hrs⟩, h⟩
  · rintro ⟨w, ⟨rs, hw, hrs⟩, h⟩
    exact ⟨rs, hrs, w, hw, h⟩

/-! ## What the replacement removes -/

/-- `K` is what a left-to-right scan of `P` keeps: at each position it keeps the piece, where no
prefix of the runes from there on is in the language, or drops a non-empty run of pieces whose
runes are a word of the language, and goes on after it. -/
inductive Scan (re : Regexp) : List Piece → List Piece → Prop
  | nil : Scan re [] []
  | keep {pc : Piece} {P K : List Piece} :
      (∀ w, w <+: (pc :: P).map Piece.rune → re.accepts w = false) → Scan re P K →
        Scan re (pc :: P) (pc :: K)
  | drop {m P K : List Piece} : m ≠ [] → re.accepts (m.map Piece.rune) → Scan re P K →
      Scan re (m ++ P) K

theorem matchAt_returns (re : Regexp) : Returns re.matchAt (re.accepts ·) := by
  rcases re with ⟨alts⟩
  simp only [Returns, matchAt, Regexp.accepts]
  induction alts with
  | nil => simp
  | cons alt alts ih =>
    intro rs n h
    simp only [List.foldr_cons, List.any_cons, Bool.or_eq_true] at h ⊢
    rcases Option.or_eq_some.mp h with h | ⟨-, h⟩
    · obtain ⟨v, t, hrs, hn, hv⟩ := seqMatch_returns alt rs n h
      exact ⟨v, t, hrs, hn, .inl hv⟩
    · obtain ⟨v, t, hrs, hn, hv⟩ := ih rs n h
      exact ⟨v, t, hrs, hn, .inr hv⟩

/-- **The replacement is a leftmost scan.** For an expression without the empty word, the pieces
`ReplaceAllString` keeps are what a left-to-right scan keeps: a piece stays only where no match
starts, and what goes is a run of non-empty matches. -/
theorem keepPieces_scan (re : Regexp) (h0 : re.accepts [] = false) :
    ∀ P : List Piece, Scan re P (keepPieces re P 0)
  | [] => .nil
  | pc :: P => by
    cases hm : re.matchAt ((pc :: P).map Piece.rune) with
    | none =>
      rw [keepPieces, hm]
      refine .keep (fun w hw => ?_) (keepPieces_scan re h0 P)
      have := (matchAt_isSome_iff re ((pc :: P).map Piece.rune)).not.mp (by rw [hm]; simp)
      exact Bool.eq_false_iff.mpr fun h => this ⟨w, hw, h⟩
    | some n =>
      obtain ⟨w, t, hrs, rfl, hw⟩ := matchAt_returns re _ n hm
      cases w with
      | nil => exact absurd hw (by simp [h0])
      | cons r w =>
        rw [keepPieces, hm]
        show Scan re (pc :: P) (keepPieces re P w.length)
        rw [keepPieces_skip, ← List.take_append_drop (w.length + 1) (pc :: P)]
        refine .drop (by simp) ?_ (keepPieces_scan re h0 _)
        have htake : (r :: w ++ t).take (w.length + 1) = r :: w := List.take_left' rfl
        rwa [List.map_take, hrs, htake]
termination_by P => P.length
decreasing_by all_goals simp_wf <;> omega

/-- **What `ReplaceAllString(src, "")` keeps**, for an expression without the empty word: the
bytes of the pieces a leftmost scan of the runes of `src` keeps. -/
theorem replaceAllString_scan (re : Regexp) (h0 : re.accepts [] = false) (src : GoString) :
    ∃ K, Scan re (decode src) K ∧ re.replaceAllString src = K.flatMap Piece.bytes :=
  ⟨_, keepPieces_scan re h0 _, rfl⟩

theorem replaceAllString_scan_paren :
    (single (· == 0x28)).accepts [] = false ∧
      ∃ K, Scan (single (· == 0x28)) (decode [0x61, 0x28, 0x62]) K ∧
        (single (· == 0x28)).replaceAllString [0x61, 0x28, 0x62] = K.flatMap Piece.bytes :=
  ⟨by decide, replaceAllString_scan _ (by decide) _⟩

end Regexp

end Adele
