import Adele.Helpers.Sanitize

/-!
# No `javascript:` survives `CleanXSS`

`CleanAll` can return a match of `javascriptRegex`, because a pass after the `javascript:` pass
deletes a byte from inside the keyword (`cleanAll_rebuilds_javascript`). `CleanXSS` runs no
deleting pass after it: this module proves that its output never matches, for every input,
invalid UTF-8 included.

* A match of `javascriptRegex` is the literal `javascript:` read rune by rune under `(?i)`, then
  the longest run of runes that are not a stop rune (`"`, `'`, Go's `\s` or `>`):
  `matchAt_javascriptRegex`. The pass removes the literal and that run, so what follows a removed
  match is a stop rune or the end.
* On runes: no position of what the pass keeps starts the literal (`keep_noLiteral`). A literal
  starting before a removed match would run into the stop rune after it, which no letter of the
  literal matches.
* On bytes: the kept pieces decode to themselves (`decoded_keep`). A removed match starts with an
  ASCII byte and is followed by one, and decoding splits there (`decode_append`).
* `Spelled` is the literal in bytes. It holds no `&` and no `;`, so `html.EscapeString` cannot
  build it out of an entity, and trimming keeps an infix.

Results:
* `replaceAllString_javascript` — one pass of `javascriptRegex` leaves no match of it.
* `cleanXSS_no_javascript` — `javascriptRegex` never matches the output of `CleanXSS`.
-/

namespace Adele

namespace Helpers

open Regexp Utf8

/-- The classes of the literal `javascript:` under `(?i)`. -/
def jsClasses : List (Nat → Bool) := "javascript:".toList.map foldLit

/-- The class of the run after the literal, `[^"'\s>]`. -/
def jsTail (r : Nat) : Bool := r != 0x22 && r != 0x27 && !perlSpace r && r != 0x3E

/-- The number of runes a match at the start of `rs` covers: the literal and the run after it. -/
def jsMatchLength (rs : List Nat) : Nat := ((rs.drop 11).takeWhile jsTail).length + 11

theorem javascriptRegex_eq :
    javascriptRegex = ⟨[jsClasses.map (fun c => ⟨c, .one⟩) ++ [⟨jsTail, .star⟩]]⟩ := rfl

theorem length_jsClasses : jsClasses.length = 11 := rfl

/-- **A match of `javascriptRegex`** is the literal, then the longest run of non-stop runes. -/
theorem matchAt_javascriptRegex (rs : List Nat) :
    javascriptRegex.matchAt rs =
      if litMatch jsClasses rs then some (jsMatchLength rs) else none := by
  rw [javascriptRegex_eq]
  simp only [matchAt, List.foldr_cons, List.foldr_nil, Option.or_none, seqMatch_ones_append,
    seqMatch_star, length_jsClasses]
  split <;> rfl

theorem matchString_javascriptRegex (s : GoString) :
    javascriptRegex.matchString s = ((decode s).map Piece.rune).tails.any (litMatch jsClasses) := by
  simp only [matchString, matchAt_javascriptRegex]
  congr
  funext rs
  split <;> simp_all

theorem mem_stops {r : Nat} (h : jsTail r = false) :
    r ∈ [0x22, 0x27, 0x3E, 0x09, 0x0A, 0x0C, 0x0D, 0x20] := by
  simp only [jsTail, perlSpace, Bool.and_eq_false_iff, bne_eq_false_iff_eq, Bool.not_eq_false',
    Bool.or_eq_true, decide_eq_true_eq] at h
  simp only [List.mem_cons, List.not_mem_nil, or_false]
  omega

/-- A stop rune matches no class of the literal. -/
theorem jsTail_of_jsClasses {c : Nat → Bool} (hc : c ∈ jsClasses) {r : Nat} (hr : c r) :
    jsTail r := by
  have hstop : ∀ r ∈ [0x22, 0x27, 0x3E, 0x09, 0x0A, 0x0C, 0x0D, 0x20], ∀ c ∈ jsClasses,
      c r = false := by decide
  by_contra h
  simp [hstop r (mem_stops (Bool.eq_false_iff.mpr h)) c hc] at hr

/-! ## The pass -/

/-- At a match, the pass drops the literal and the run after it. -/
theorem keep_of_litMatch {pc : Piece} {rest : List Piece}
    (h : litMatch jsClasses ((pc :: rest).map Piece.rune)) :
    keepPieces javascriptRegex (pc :: rest) 0 = keepPieces javascriptRegex
      ((pc :: rest).drop (jsMatchLength ((pc :: rest).map Piece.rune))) 0 := by
  rw [keepPieces, matchAt_javascriptRegex, if_pos h, jsMatchLength]
  dsimp only
  rw [keepPieces_skip]
  rfl

/-- Elsewhere, the pass keeps the piece. -/
theorem keep_of_not_litMatch {pc : Piece} {rest : List Piece}
    (h : litMatch jsClasses ((pc :: rest).map Piece.rune) = false) :
    keepPieces javascriptRegex (pc :: rest) 0 = pc :: keepPieces javascriptRegex rest 0 := by
  rw [List.map_cons] at h
  rw [keepPieces, matchAt_javascriptRegex, if_neg (by simp [h])]

theorem drop_length_takeWhile {α : Type} (p : α → Bool) (l : List α) :
    l.drop (l.takeWhile p).length = l.dropWhile p := by
  have := List.drop_left (l.takeWhile p) (l.dropWhile p)
  rwa [List.takeWhile_append_dropWhile] at this

/-- What follows a removed match is a stop rune, or nothing. -/
theorem jsTail_after_match (P : List Piece) :
    ∀ q ∈ (P.drop (jsMatchLength (P.map Piece.rune))).head?, jsTail q.rune = false := by
  intro q hq
  have hrs : ((P.drop (jsMatchLength (P.map Piece.rune))).map Piece.rune).head? = some q.rune := by
    rw [List.head?_map, Option.mem_def.mp hq]
    rfl
  rw [List.map_drop, jsMatchLength, Nat.add_comm, ← List.drop_drop, drop_length_takeWhile] at hrs
  have := List.head?_dropWhile_not jsTail ((P.map Piece.rune).drop 11)
  rw [hrs] at this
  exact this

theorem jsTail_of_litMatch {r : Nat} {rs : List Nat} (h : litMatch jsClasses (r :: rs)) :
    jsTail r := by
  obtain ⟨c, cs, hjs⟩ : ∃ c cs, jsClasses = c :: cs := ⟨_, _, rfl⟩
  rw [hjs, litMatch, Bool.and_eq_true] at h
  exact jsTail_of_jsClasses (hjs ▸ List.mem_cons_self c cs) h.1

/-- A prefix of the literal read where the pass keeps text was there before the pass: a removed
match is followed by a stop rune, which no class of the literal matches. -/
theorem litMatch_keep : ∀ (P : List Piece) (cs : List (Nat → Bool)), (∀ c ∈ cs, c ∈ jsClasses) →
    litMatch cs ((keepPieces javascriptRegex P 0).map Piece.rune) → litMatch cs (P.map Piece.rune)
  | [], _, _, h => h
  | _ :: _, [], _, _ => rfl
  | pc :: rest, c :: cs, hcs, h => by
    cases hm : litMatch jsClasses ((pc :: rest).map Piece.rune)
    · rw [keep_of_not_litMatch hm] at h
      simp only [List.map_cons, litMatch, Bool.and_eq_true] at h ⊢
      exact ⟨h.1, litMatch_keep rest cs (fun c' h' => hcs c' (List.mem_cons_of_mem _ h')) h.2⟩
    · rw [keep_of_litMatch hm] at h
      have hstop := jsTail_after_match (pc :: rest)
      cases hD : (pc :: rest).drop (jsMatchLength ((pc :: rest).map Piece.rune)) with
      | nil => rw [hD] at h; simp [keepPieces, litMatch] at h
      | cons q D =>
        rw [hD] at h hstop
        have hq : jsTail q.rune = false := hstop q rfl
        rw [keep_of_not_litMatch (Bool.eq_false_iff.mpr fun h' => by
          simp [jsTail_of_litMatch (List.map_cons .. ▸ h'), hq] at hq)] at h
        simp only [List.map_cons, litMatch, Bool.and_eq_true] at h
        simp [jsTail_of_jsClasses (hcs c (List.mem_cons_self _ _)) h.1] at hq

/-- **No kept position starts the literal.** After the pass, no tail of the kept runes begins
with `javascript:`. -/
theorem keep_noLiteral : ∀ (P : List Piece),
    ∀ T ∈ ((keepPieces javascriptRegex P 0).map Piece.rune).tails, litMatch jsClasses T = false
  | [] => by simp [keepPieces, litMatch, jsClasses]
  | pc :: rest => by
    cases hm : litMatch jsClasses ((pc :: rest).map Piece.rune)
    · rw [keep_of_not_litMatch hm]
      intro T hT
      rw [List.map_cons, List.tails_cons, List.mem_cons] at hT
      rcases hT with rfl | hT
      · refine Bool.eq_false_iff.mpr fun h => ?_
        obtain ⟨c, cs, hjs⟩ : ∃ c cs, jsClasses = c :: cs := ⟨_, _, rfl⟩
        rw [hjs, litMatch, Bool.and_eq_true] at h
        have := litMatch_keep rest cs (fun c' h' => hjs ▸ List.mem_cons_of_mem c h') h.2
        rw [List.map_cons, hjs, litMatch, h.1, this] at hm
        exact absurd hm (by decide)
      · exact keep_noLiteral rest T hT
    · rw [keep_of_litMatch hm]
      exact keep_noLiteral _
termination_by P => P.length
decreasing_by
  all_goals simp only [List.length_drop, List.length_cons, jsMatchLength]
  all_goals omega

/-! ## The kept bytes decode to the kept pieces -/

/-- Pieces that their own bytes decode to. -/
def Decoded (Q : List Piece) : Prop := decode (Q.flatMap Piece.bytes) = Q

/-- Every ASCII rune of the pieces is read from a byte of its own. -/
def AsciiPieces (Q : List Piece) : Prop :=
  ∀ q ∈ Q, q.rune < 0x80 → ∃ b : UInt8, q = ⟨b.toNat, [b]⟩

theorem decoded_drop : ∀ (n : Nat) {Q : List Piece}, Decoded Q → Decoded (Q.drop n)
  | 0, _, h => h
  | _ + 1, [], h => h
  | n + 1, _ :: _, h => decoded_drop n (decode_flatMap_tail h)

theorem rune_lt_of_litMatch {r : Nat} {rs : List Nat} (h : litMatch jsClasses (r :: rs)) :
    r < 0x80 := by
  have hj : ∀ r, foldLit 'j' r → r < 0x80 := fun r hr => by
    simp only [foldLit, show 'j'.isAlpha = true from rfl, if_true, show 'j'.toLower = 'j' from rfl,
      show 'j'.toUpper = 'J' from rfl, Bool.or_eq_true, decide_eq_true_eq, Bool.and_eq_true] at hr
    rcases hr with ((h | h) | ⟨h, -⟩) | ⟨h, -⟩
    · rw [h]; decide
    · rw [h]; decide
    · exact absurd h (by decide)
    · exact absurd h (by decide)
  simp only [jsClasses, List.map, litMatch, Bool.and_eq_true] at h
  exact hj r h.1

/-- The continuation bytes at the head of what the pass keeps are those at the head of its
input: a removed match starts with an ASCII byte and is followed by one, or by nothing. -/
theorem conts_keep : ∀ (P : List Piece), AsciiPieces P →
    ((keepPieces javascriptRegex P 0).flatMap Piece.bytes).takeWhile (fun a => decide (isCont a)) =
      (P.flatMap Piece.bytes).takeWhile (fun a => decide (isCont a))
  | [], _ => rfl
  | pc :: rest, hP => by
    have hA : AsciiPieces rest := fun q hq => hP q (List.mem_cons_of_mem _ hq)
    cases hm : litMatch jsClasses ((pc :: rest).map Piece.rune)
    · rw [keep_of_not_litMatch hm, List.flatMap_cons, List.flatMap_cons, List.takeWhile_append,
        List.takeWhile_append, conts_keep rest hA]
    · rw [keep_of_litMatch hm]
      have hascii (q : Piece) (hq : q ∈ pc :: rest) (hlt : q.rune < 0x80) (l : GoString) :
          (q.bytes ++ l).takeWhile (fun a => decide (isCont a)) = [] := by
        obtain ⟨b, rfl⟩ := hP q hq hlt
        simp only [isCont, List.singleton_append, List.takeWhile_cons]
        simp only at hlt
        simp [show ¬0x80 ≤ b.toNat by omega]
      rw [List.flatMap_cons, hascii pc (List.mem_cons_self _ _)
        (rune_lt_of_litMatch (List.map_cons .. ▸ hm)) _]
      have hstop := jsTail_after_match (pc :: rest)
      cases hD : (pc :: rest).drop (jsMatchLength ((pc :: rest).map Piece.rune)) with
      | nil => rfl
      | cons q D =>
        rw [hD] at hstop
        have hq : jsTail q.rune = false := hstop q rfl
        have hqP : q ∈ pc :: rest := List.mem_of_mem_drop (hD ▸ List.mem_cons_self q D)
        rw [keep_of_not_litMatch (Bool.eq_false_iff.mpr fun h' => by
          simp [jsTail_of_litMatch (List.map_cons .. ▸ h'), hq] at hq), List.flatMap_cons,
          hascii q hqP (by have := mem_stops hq; simp at this; omega)]

/-- **The kept pieces decode to themselves.** -/
theorem decoded_keep : ∀ (P : List Piece), Decoded P → AsciiPieces P →
    Decoded (keepPieces javascriptRegex P 0)
  | [], _, _ => rfl
  | pc :: rest, hD, hA => by
    have hAr : AsciiPieces rest := fun q hq => hA q (List.mem_cons_of_mem _ hq)
    cases hm : litMatch jsClasses ((pc :: rest).map Piece.rune)
    · rw [keep_of_not_litMatch hm]
      have ih := decoded_keep rest (decode_flatMap_tail hD) hAr
      obtain ⟨b, bs, hb⟩ :=
        List.exists_cons_of_ne_nil (bytes_ne_nil (hD ▸ List.mem_cons_self pc rest))
      unfold Decoded at hD ih ⊢
      rw [List.flatMap_cons, hb, List.cons_append, decode_cons] at hD ⊢
      obtain ⟨hhead, -⟩ := List.cons.inj hD
      have hrune :
          decodeRune (b :: (bs ++ (keepPieces javascriptRegex rest 0).flatMap Piece.bytes)) =
            decodeRune (b :: (bs ++ rest.flatMap Piece.bytes)) := by
        rw [decodeRune_takeWhile, decodeRune_takeWhile b (bs ++ _), List.takeWhile_append,
          List.takeWhile_append, conts_keep rest hAr]
      have htake : (b :: (bs ++ rest.flatMap Piece.bytes)).take
          (decodeRune (b :: (bs ++ rest.flatMap Piece.bytes))).2 = b :: bs := by
        rw [← hb, ← hhead]
      have hw : (decodeRune (b :: (bs ++ rest.flatMap Piece.bytes))).2 = (b :: bs).length := by
        have := (decodeRune_width b (bs ++ rest.flatMap Piece.bytes)).2
        rw [← htake, List.length_take, List.length_cons]
        omega
      have hpc : pc = ⟨(decodeRune (b :: (bs ++ rest.flatMap Piece.bytes))).1, b :: bs⟩ := by
        rw [← hhead, htake]
      rw [hrune, hw, show b :: (bs ++ (keepPieces javascriptRegex rest 0).flatMap Piece.bytes) =
        (b :: bs) ++ (keepPieces javascriptRegex rest 0).flatMap Piece.bytes from rfl,
        List.take_left, List.drop_left, ih, hpc]
    · rw [keep_of_litMatch hm]
      exact decoded_keep _ (decoded_drop _ hD) fun q hq => hA q (List.mem_of_mem_drop hq)
termination_by P => P.length
decreasing_by
  all_goals simp only [List.length_drop, List.length_cons, jsMatchLength]
  all_goals omega

/-- **One pass leaves no match.** Unlike `pathTraversalRegex` and `onEventRegex`, whose single
pass can join a new match, one pass of `javascriptRegex` leaves no match of it. -/
theorem replaceAllString_javascript (s : GoString) :
    javascriptRegex.matchString (javascriptRegex.replaceAllString s) = false := by
  have hK := decoded_keep (decode s) (by rw [Decoded, flatMap_decode])
    fun q hq hlt => let ⟨b, _, hb⟩ := rune_lt_piece hq hlt; ⟨b, hb⟩
  rw [matchString_javascriptRegex, replaceAllString, hK]
  exact List.any_eq_false.mpr fun T hT => by simp [keep_noLiteral _ T hT]

/-! ## The literal in bytes -/

/-- The runes the classes of the literal match: its letters in both cases, `ſ` for `s`, and
`:`. -/
def jsRunes : List Nat :=
  [0x6A, 0x4A, 0x61, 0x41, 0x76, 0x56, 0x73, 0x53, 0x17F, 0x63, 0x43, 0x72, 0x52, 0x69, 0x49,
    0x70, 0x50, 0x74, 0x54, 0x3A]

/-- The UTF-8 bytes of a rune below `0x800`: the byte itself below `0x80`, else two bytes. -/
def spell (r : Nat) : GoString :=
  if r < 0x80 then [UInt8.ofNat r]
  else [UInt8.ofNat (0xC0 + r / 0x40), UInt8.ofNat (0x80 + r % 0x40)]

/-- `w` is the literal `javascript:` in bytes: the encodings of eleven runes its classes match,
in order. -/
def Spelled (w : GoString) : Prop :=
  ∃ rs : List Nat, litMatch jsClasses rs ∧ rs.length = 11 ∧ w = rs.flatMap spell

theorem mem_jsRunes {c : Nat → Bool} (hc : c ∈ jsClasses) {r : Nat} (hr : c r) :
    r ∈ jsRunes := by
  obtain ⟨ch, hch, rfl⟩ := List.mem_map.mp hc
  have key : ∀ ch ∈ "javascript:".toList, (∀ r ∈ [ch.toLower.toNat, ch.toUpper.toNat, ch.toNat],
      r ∈ jsRunes) ∧ (ch.toLower = 's' → 0x17F ∈ jsRunes) ∧ ch.toLower ≠ 'k' := by decide
  rcases foldLit_cases hr with h | ⟨hs, rfl⟩ | ⟨hk, -⟩
  · exact (key ch hch).1 r h
  · exact (key ch hch).2.1 hs
  · exact absurd hk (key ch hch).2.2

theorem jsRunes_spell : ∀ r ∈ jsRunes, (r < 0x80 ∨ r = 0x17F) ∧ (0x26 : UInt8) ∉ spell r ∧
    (0x3B : UInt8) ∉ spell r := by decide

/-- The runes of a match of the literal are runes of `jsRunes`. -/
theorem mem_jsRunes_of_litMatch {rs : List Nat} (h : litMatch jsClasses rs) :
    ∀ r ∈ rs.take 11, r ∈ jsRunes := fun r hr =>
  let ⟨_, hc, hcr⟩ := exists_of_litMatch h r hr
  mem_jsRunes hc hcr

theorem mem_jsRunes_of_length {rs : List Nat} (h : litMatch jsClasses rs) (hlen : rs.length = 11) :
    ∀ r ∈ rs, r ∈ jsRunes := by
  simpa [List.take_of_length_le (Nat.le_of_eq hlen)] using mem_jsRunes_of_litMatch h

theorem length_flatMap_spell : ∀ rs : List Nat, rs.length ≤ (rs.flatMap spell).length
  | [] => le_rfl
  | r :: rs => by
    have := length_flatMap_spell rs
    simp only [List.flatMap_cons, List.length_append, List.length_cons, spell]
    split <;> simp only [List.length_cons, List.length_nil] <;> omega

/-- The spelled literal holds no `&` and no `;`, and is at least five bytes long. -/
theorem Spelled.facts {w : GoString} (hw : Spelled w) :
    (0x26 : UInt8) ∉ w ∧ (0x3B : UInt8) ∉ w ∧ 5 ≤ w.length := by
  obtain ⟨rs, hlit, hlen, rfl⟩ := hw
  have hrs := mem_jsRunes_of_length hlit hlen
  simp only [List.mem_flatMap, not_exists, not_and]
  exact ⟨fun r hr => (jsRunes_spell r (hrs r hr)).2.1, fun r hr => (jsRunes_spell r (hrs r hr)).2.2,
    by have := length_flatMap_spell rs; omega⟩

/-! ## From runes to bytes and back -/

/-- A piece whose rune the literal can match is the rune's encoding. -/
theorem piece_spell {s : GoString} {pc : Piece} (h : pc ∈ decode s) (hr : pc.rune ∈ jsRunes) :
    pc.bytes = spell pc.rune := by
  rcases (jsRunes_spell _ hr).1 with hlt | h17F
  · obtain ⟨b, -, rfl⟩ := rune_lt_piece h hlt
    simp only [spell, hlt, if_true, List.cons.injEq, and_true]
    exact UInt8.toNat.inj (UInt8.toNat_ofNat_of_lt (UInt8.toNat_lt_size b)).symm
  · rw [piece_two h (by omega) (by omega), spell, if_neg (by omega)]

/-- The encoding of a rune of the literal decodes to that rune, whatever follows it. -/
theorem decode_spell {r : Nat} (hr : r ∈ jsRunes) (z : GoString) :
    decode (spell r ++ z) = ⟨r, spell r⟩ :: decode z := by
  rcases (jsRunes_spell _ hr).1 with hlt | rfl
  · have hb : (UInt8.ofNat r).toNat = r :=
      UInt8.toNat_ofNat_of_lt (by simp only [UInt8.size]; omega)
    simp only [spell, hlt, if_true, List.singleton_append, decode_cons, decodeRune, hb,
      List.take_succ_cons, List.take_zero, List.drop_succ_cons, List.drop_zero]
  · have hd : decodeRune (0xC5 :: 0xBF :: z) = (0x17F, 2) := rfl
    rw [show spell 0x17F = [0xC5, 0xBF] from rfl, List.cons_append, List.cons_append,
      List.nil_append, decode_cons, hd]
    rfl

theorem decode_flatMap_spell (z : GoString) : ∀ rs : List Nat, (∀ r ∈ rs, r ∈ jsRunes) →
    decode (rs.flatMap spell ++ z) = rs.map (fun r => ⟨r, spell r⟩) ++ decode z
  | [], _ => rfl
  | r :: rs, h => by
    rw [List.flatMap_cons, List.append_assoc, decode_spell (h r (List.mem_cons_self r rs)),
      decode_flatMap_spell z rs fun r' hr' => h r' (List.mem_cons_of_mem r hr')]
    rfl

/-- **A spelled literal in a string is read as the literal**: decoding splits before its first
byte, an ASCII letter, and reads its runes. -/
theorem litMatch_of_spelled {w X : GoString} (hw : Spelled w) (hX : w <:+: X) :
    ∃ T ∈ ((decode X).map Piece.rune).tails, litMatch jsClasses T := by
  obtain ⟨rs, hlit, hlen, rfl⟩ := hw
  obtain ⟨a, c, rfl⟩ := hX
  obtain ⟨r, rs', rfl⟩ := List.exists_cons_of_ne_nil (List.ne_nil_of_length_eq_add_one hlen)
  have hrs := mem_jsRunes_of_length hlit hlen
  have hlt := rune_lt_of_litMatch hlit
  have hhead : ∀ b ∈ ((r :: rs').flatMap spell ++ c).head?, ¬isCont b := by
    simp only [List.flatMap_cons, spell, hlt, if_true, List.singleton_append, List.cons_append,
      List.head?_cons, Option.mem_def, Option.some.injEq, isCont, forall_eq',
      UInt8.toNat_ofNat_of_lt (show r < UInt8.size by simp only [UInt8.size]; omega)]
    omega
  refine ⟨(r :: rs') ++ (decode c).map Piece.rune, ?_, litMatch_append hlit _⟩
  rw [List.append_assoc, decode_append a hhead, decode_flatMap_spell c _ hrs, List.mem_tails]
  simp only [List.map_append, List.map_map, Function.comp_def, List.map_id']
  exact List.suffix_append _ _

theorem flatMap_spell_of_pieces : ∀ P : List Piece, (∀ q ∈ P, q.bytes = spell q.rune) →
    P.flatMap Piece.bytes = (P.map Piece.rune).flatMap spell
  | [], _ => rfl
  | q :: P, h => by
    rw [List.flatMap_cons, h q (List.mem_cons_self q P),
      flatMap_spell_of_pieces P fun q' hq' => h q' (List.mem_cons_of_mem q hq')]
    rfl

/-- **A literal read from pieces is spelled in their bytes.** -/
theorem spelled_of_litMatch :
    ∀ Q : List Piece, (∀ q ∈ Q, q.rune ∈ jsRunes → q.bytes = spell q.rune) →
      ∀ T ∈ (Q.map Piece.rune).tails, litMatch jsClasses T →
        ∃ w, Spelled w ∧ w <:+: Q.flatMap Piece.bytes
  | [], _, T, hT, hlit => by
    simp only [List.map_nil, List.tails, List.mem_singleton] at hT
    subst hT
    exact absurd hlit (by decide)
  | q :: Q, hQ, T, hT, hlit => by
    rw [List.map_cons, List.tails_cons, List.mem_cons] at hT
    rcases hT with rfl | hT
    · have hlit' : litMatch jsClasses ((q :: Q).map Piece.rune) := hlit
      have hlen := length_le_of_litMatch hlit'
      have hrs := mem_jsRunes_of_litMatch hlit'
      have htake := litMatch_take hlit'
      rw [← List.map_take] at hrs
      rw [length_jsClasses, ← List.map_take] at htake
      refine ⟨((q :: Q).take 11).flatMap Piece.bytes, ⟨_, htake, ?_, ?_⟩, ?_⟩
      · simp only [length_jsClasses, List.length_map, List.length_take] at hlen ⊢
        omega
      · exact flatMap_spell_of_pieces _ fun q' hq' =>
          hQ q' (List.mem_of_mem_take hq') (hrs _ (List.mem_map_of_mem Piece.rune hq'))
      · exact List.IsPrefix.isInfix ⟨((q :: Q).drop 11).flatMap Piece.bytes, by
          rw [← List.flatMap_append, List.take_append_drop]⟩
    · obtain ⟨w, hw, hinf⟩ :=
        spelled_of_litMatch Q (fun q' hq' => hQ q' (List.mem_cons_of_mem q hq')) T hT hlit
      exact ⟨w, hw, hinf.trans (List.suffix_append _ _).isInfix⟩

/-! ## The output of `CleanXSS` -/

/-- **No `javascript:` survives `CleanXSS`.** For every input, invalid UTF-8 included,
`javascriptRegex` does not match the output: a match there is spelled in the bytes of the
escaped text, the escape cannot build it, so it was spelled in the text the pass returned, which
`replaceAllString_javascript` rules out. -/
theorem cleanXSS_no_javascript (s : GoString) :
    javascriptRegex.matchString (cleanXSS s) = false := by
  by_cases hs : s = []
  · subst hs
    rfl
  refine Bool.eq_false_iff.mpr fun h => ?_
  rw [matchString_javascriptRegex, List.any_eq_true] at h
  obtain ⟨T, hT, hlit⟩ := h
  obtain ⟨w, hw, hinf⟩ := spelled_of_litMatch _ (fun q hq => piece_spell hq) T hT hlit
  rw [flatMap_decode] at hinf
  simp only [cleanXSS, hs, if_false] at hinf
  obtain ⟨hamp, hsemi, hlen⟩ := hw.facts
  obtain ⟨T', hT', hlit'⟩ := litMatch_of_spelled hw (Html.infix_of_infix_escapeString hamp hsemi
    hlen _ (hinf.trans (Strings.trimmedOf_trimSpace _).isInfix))
  have := replaceAllString_javascript (onEventRegex.replaceAllString
    (scriptTagRegex.replaceAllString s))
  rw [matchString_javascriptRegex, List.any_eq_false] at this
  exact this T' hT' hlit'

end Helpers

end Adele
