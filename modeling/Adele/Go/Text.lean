import Adele.Go.Utf8
import Mathlib.Data.List.Infix

/-!
# `html.EscapeString` and `strings.TrimSpace`

The last two steps of `CleanXSS` and `CleanAll` (`src/unnamed/part_001:168-170`, `225-227`),
modelled as Go's standard library writes them, on bytes.

* `html.EscapeString` uses a `strings.Replacer` whose five old strings are single bytes, so it
  replaces byte by byte: `escapeByte`.
* `strings.TrimSpace` scans ASCII bytes from the left and then from the right, and hands over
  to `TrimFunc(s, unicode.IsSpace)` or `TrimRightFunc` at the first byte of `0x80` or above.
  `TrimLeftFunc` reads runes forward (`indexFunc`, a `range` loop); `TrimRightFunc` reads them
  backward with `DecodeLastRuneInString` (`lastIndexFunc`) and then adds the width of the rune it
  stopped at, decoded forward.

Results:
* `escapeString_no_special`, `ampOk_escapeString` — an escaped string holds none of `<>"'`, and
  each of its `&` starts an entity.
* `infix_of_infix_escapeString` — text of five bytes or more with no `&` and no `;`, found in an
  escaped string, was in the string before: the escape builds no new such text.
* `trimmedOf_trimSpace` — `TrimSpace` removes a prefix and a suffix, and the suffix is ASCII white
  space and bytes of `0x80` or above (the bytes of the multi-byte white-space runes).
* `ampOk_of_trimmedOf` — trimming such a suffix cannot cut an entity, whose last byte is `;`.
* `trimSpace_trimSpace` — `TrimSpace` is idempotent: what it returns is `Trimmed` (its first
  rune read forward and its last rune read backward are not white space, `trimmed_trimSpace`),
  and it keeps trimmed text. The right trim stops before a byte that starts a white-space rune,
  never a continuation byte, so the rune it keeps has the same width read either way
  (`trimRightFunc_stop`).
-/

namespace Adele

/-- A Go string of ASCII text, written as a Lean string. -/
def ascii (s : String) : GoString := s.toList.map fun c => c.toNat.toUInt8

namespace Html

/-- The five entities `html.EscapeString` writes. -/
def entities : List GoString := [ascii "&lt;", ascii "&gt;", ascii "&amp;", ascii "&#39;",
  ascii "&#34;"]

/-- What `html.EscapeString` writes for one byte (`htmlEscaper`, `html/escape.go`). -/
def escapeByte (b : UInt8) : GoString :=
  if b = 0x26 then ascii "&amp;"
  else if b = 0x27 then ascii "&#39;"
  else if b = 0x3C then ascii "&lt;"
  else if b = 0x3E then ascii "&gt;"
  else if b = 0x22 then ascii "&#34;"
  else [b]

/-- `html.EscapeString`. -/
def escapeString (s : GoString) : GoString := s.flatMap escapeByte

/-- The bytes `html.EscapeString` removes: `<`, `>`, `"`, `'`. -/
def special (b : UInt8) : Bool := b = 0x3C || b = 0x3E || b = 0x22 || b = 0x27

/-- Every `&` of `s` starts one of the five entities. -/
def AmpOk (s : GoString) : Prop :=
  ∀ u v, s = u ++ 0x26 :: v → ∃ e ∈ entities, e <+: (0x26 : UInt8) :: v

/-- **What one byte escapes to**: one of the five entities, or the byte itself when it is
neither special nor `&`. -/
theorem escapeByte_cases (b : UInt8) :
    escapeByte b ∈ entities ∨ escapeByte b = [b] ∧ special b = false ∧ b ≠ 0x26 := by
  unfold escapeByte
  split_ifs with h₁ h₂ h₃ h₄ h₅
  all_goals first | exact .inl (by decide) | exact .inr ⟨rfl, by simp [special, *], h₁⟩

theorem entities_no_special : ∀ e ∈ entities, ∀ c ∈ e, special c = false := by decide

theorem escapeByte_no_special (b : UInt8) : ∀ c ∈ escapeByte b, special c = false := by
  rcases escapeByte_cases b with h | ⟨h, hs, -⟩
  · exact entities_no_special _ h
  · simpa [h] using hs

theorem escapeString_no_special (s : GoString) : ∀ c ∈ escapeString s, special c = false := by
  simp only [escapeString, List.mem_flatMap]
  rintro c ⟨b, -, hc⟩
  exact escapeByte_no_special b c hc

/-- An escaped byte takes at most five bytes, the length of `&amp;`, `&#39;` and `&#34;`. -/
theorem length_escapeByte_le (b : UInt8) : (escapeByte b).length ≤ 5 := by
  rcases escapeByte_cases b with h | ⟨h, -⟩
  · have : ∀ e ∈ entities, e.length ≤ 5 := by decide
    exact this _ h
  · simp [h]

theorem length_escapeString_le : ∀ s : GoString, (escapeString s).length ≤ 5 * s.length
  | [] => le_rfl
  | b :: s => by
    have := length_escapeString_le s
    have := length_escapeByte_le b
    simp only [escapeString, List.flatMap_cons, List.length_append, List.length_cons] at *
    omega

theorem amp_not_mem_tail : ∀ e ∈ entities, (0x26 : UInt8) ∉ e.tail := by decide

/-- The only `&` an escaped byte holds is the first byte of an entity. -/
theorem escapeByte_amp {b : UInt8} {u w : GoString} (h : escapeByte b = u ++ 0x26 :: w) :
    u = [] ∧ escapeByte b ∈ entities := by
  rcases escapeByte_cases b with hent | ⟨hb, -, hne⟩
  · refine ⟨?_, hent⟩
    rcases u with _ | ⟨x, u'⟩
    · rfl
    · exact absurd (by simp [h]) (amp_not_mem_tail _ hent)
  · rw [hb] at h
    rcases u with _ | ⟨x, _ | ⟨y, u'⟩⟩ <;> simp_all

theorem ampOk_append_escapeByte (b : UInt8) {t : GoString} (ht : AmpOk t) :
    AmpOk (escapeByte b ++ t) := by
  intro u v h
  rcases List.append_eq_append_iff.mp h.symm with ⟨a', he, hv⟩ | ⟨c', hu, ht'⟩
  · rcases a' with _ | ⟨x, a''⟩
    · exact ht [] v (by simpa using hv.symm)
    · simp only [List.cons_append, List.cons.injEq] at hv
      obtain ⟨rfl, rfl⟩ := hv
      obtain ⟨rfl, hmem⟩ := escapeByte_amp he
      exact ⟨_, hmem, by rw [he]; exact List.prefix_append _ _⟩
  · exact ht c' v ht'

/-- **Every `&` of an escaped string starts an entity.** -/
theorem ampOk_escapeString : ∀ s : GoString, AmpOk (escapeString s)
  | [] => fun u v h => by simp [escapeString] at h
  | b :: s => by
    simpa [escapeString] using ampOk_append_escapeByte b (ampOk_escapeString s)

/-! ### What the escape cannot build -/

theorem entity_facts : ∀ e ∈ entities, e.head? = some 0x26 ∧ e.length ≤ 5 ∧
    ∀ a ∈ e.tails, a ≠ [] → (0x3B : UInt8) ∈ a := by decide

/-- A prefix of an escaped string with no `&` is a prefix of the string: every entity starts
with `&`. -/
theorem prefix_of_prefix_escapeString {w : GoString} (hw : (0x26 : UInt8) ∉ w) :
    ∀ Y : GoString, w <+: escapeString Y → w <+: Y
  | [], h => by simpa [escapeString] using h
  | b :: Y, h => by
    rcases w with _ | ⟨x, w'⟩
    · exact List.nil_prefix
    rw [escapeString, List.flatMap_cons] at h
    rcases escapeByte_cases b with he | ⟨he, -, -⟩
    · obtain ⟨e', he'⟩ := List.head?_eq_some_iff.mp (entity_facts _ he).1
      rw [he', List.cons_append, List.cons_prefix_cons] at h
      exact absurd (h.1 ▸ List.mem_cons_self x w') hw
    · rw [he, List.singleton_append, List.cons_prefix_cons] at h
      obtain ⟨rfl, h'⟩ := h
      exact List.cons_prefix_cons.mpr
        ⟨rfl, prefix_of_prefix_escapeString (fun h => hw (List.mem_cons_of_mem _ h)) Y h'⟩

/-- **The escape builds no new text without `&` and `;`.** A string of at least five bytes with
neither, found in an escaped string, was in the string before the escape: it cannot overlap an
entity, which starts with `&` and ends with `;`. -/
theorem infix_of_infix_escapeString {w : GoString} (hamp : (0x26 : UInt8) ∉ w)
    (hsemi : (0x3B : UInt8) ∉ w) (hlen : 5 ≤ w.length) :
    ∀ Y : GoString, w <:+: escapeString Y → w <:+: Y
  | [], ⟨s, t, h⟩ => by
    rw [escapeString, List.flatMap_nil, List.append_eq_nil, List.append_eq_nil] at h
    simp [h.1.2] at hlen
  | b :: Y, ⟨s, t, h⟩ => by
    have hpre (hw : w <+: escapeString Y) : w <:+: b :: Y :=
      (prefix_of_prefix_escapeString hamp Y hw).isInfix.trans (List.suffix_cons b Y).isInfix
    rw [show escapeString (b :: Y) = escapeByte b ++ escapeString Y from rfl, List.append_assoc,
      List.append_eq_append_iff] at h
    rcases h with ⟨a, hE, hwt⟩ | ⟨c, -, hR⟩
    · rcases a with _ | ⟨x, a'⟩
      · exact hpre ⟨t, by rw [hwt, List.nil_append]⟩
      rcases escapeByte_cases b with he | ⟨he, -, -⟩
      · obtain ⟨-, hle, hsemis⟩ := entity_facts _ he
        have hmem : x :: a' ∈ (escapeByte b).tails :=
          (List.mem_tails _ _).mpr ⟨s, hE.symm⟩
        have hlen' : (x :: a').length ≤ w.length := by
          have := congrArg List.length hE
          simp only [List.length_append] at this
          omega
        have hpfx : x :: a' <+: w := by
          have := congrArg (List.take (x :: a').length) hwt
          rw [List.take_append_of_le_length hlen', List.take_left] at this
          exact this ▸ List.take_prefix _ _
        exact absurd (hpfx.subset (hsemis _ hmem (List.cons_ne_nil x a'))) hsemi
      · rw [he] at hE
        obtain ⟨rfl, rfl, rfl⟩ : s = [] ∧ b = x ∧ a' = [] := by
          rcases s with _ | ⟨y, s'⟩
          · simp only [List.nil_append, List.cons.injEq] at hE
            exact ⟨rfl, hE.1, hE.2.symm⟩
          · simp at hE
        rcases w with _ | ⟨z, w'⟩
        · simp at hlen
        simp only [List.cons_append, List.nil_append, List.cons.injEq] at hwt
        obtain ⟨rfl, hwt⟩ := hwt
        exact List.IsPrefix.isInfix (List.cons_prefix_cons.mpr ⟨rfl,
          prefix_of_prefix_escapeString (fun h => hamp (List.mem_cons_of_mem _ h)) Y ⟨t, hwt⟩⟩)
    · exact (infix_of_infix_escapeString hamp hsemi hlen Y
        ⟨c, t, by rw [List.append_assoc, hR]⟩).trans
        (List.suffix_cons b Y).isInfix

end Html

namespace Strings

open Utf8

/-- `unicode.IsSpace`: the Latin-1 white space, then the `White_Space` property above it. -/
def isSpace (r : Nat) : Bool :=
  if r ≤ 0xFF then
    r = 0x09 || r = 0x0A || r = 0x0B || r = 0x0C || r = 0x0D || r = 0x20 || r = 0x85 || r = 0xA0
  else
    r = 0x1680 || (0x2000 ≤ r && r ≤ 0x200A) || r = 0x2028 || r = 0x2029 || r = 0x202F ||
      r = 0x205F || r = 0x3000

/-- `asciiSpace` of `strings`: `\t`, `\n`, `\v`, `\f`, `\r` and space. -/
def asciiSpace (b : UInt8) : Bool :=
  b.toNat = 0x09 || b.toNat = 0x0A || b.toNat = 0x0B || b.toNat = 0x0C || b.toNat = 0x0D ||
    b.toNat = 0x20

/-- `indexFunc(s, f, false)` over the runes of `s`: the byte index of the first rune failing
`f`. -/
def indexNot (f : Nat → Bool) : List Piece → Option Nat
  | [] => none
  | pc :: rest => if f pc.rune then (indexNot f rest).map (pc.bytes.length + ·) else some 0

/-- `strings.TrimLeftFunc`. -/
def trimLeftFunc (f : Nat → Bool) (s : GoString) : GoString :=
  match indexNot f (decode s) with
  | some i => s.drop i
  | none => []

/-- `lastIndexFunc(s, f, false)`: runes read backward with `DecodeLastRuneInString`, on a
budget of `fuel` runes; the index where the last rune failing `f` starts. -/
def lastIndexNot (f : Nat → Bool) : Nat → GoString → Option Nat
  | 0, _ => none
  | _ + 1, [] => none
  | fuel + 1, b :: rest =>
    let r := decodeLastRune (b :: rest)
    if f r.1 then lastIndexNot f fuel ((b :: rest).take (rest.length + 1 - r.2))
    else some (rest.length + 1 - r.2)

/-- `strings.TrimRightFunc`: keep up to the last rune failing `f`, that rune's width decoded
forward. -/
def trimRightFunc (f : Nat → Bool) (s : GoString) : GoString :=
  match lastIndexNot f s.length s with
  | some i =>
    s.take (if 0x80 ≤ (s.getD i 0).toNat then i + (decodeRune (s.drop i)).2 else i + 1)
  | none => []

/-- `strings.TrimFunc`. -/
def trimFunc (f : Nat → Bool) (s : GoString) : GoString :=
  trimRightFunc f (trimLeftFunc f s)

/-- The left loop of `TrimSpace`: `inl` with the result when it hands over to `TrimFunc` at a
byte of `0x80` or above, `inr` with what is left after the leading ASCII spaces. -/
def trimSpaceLeft : GoString → GoString ⊕ GoString
  | [] => .inr []
  | c :: rest =>
    if 0x80 ≤ c.toNat then .inl (trimFunc isSpace (c :: rest))
    else if asciiSpace c then trimSpaceLeft rest
    else .inr (c :: rest)

/-- The right loop of `TrimSpace` over `s[start:stop]`, given reversed. -/
def trimSpaceRight : GoString → GoString
  | [] => []
  | c :: restRev =>
    if 0x80 ≤ c.toNat then trimRightFunc isSpace (c :: restRev).reverse
    else if asciiSpace c then trimSpaceRight restRev
    else (c :: restRev).reverse

/-- `strings.TrimSpace`. -/
def trimSpace (s : GoString) : GoString :=
  match trimSpaceLeft s with
  | .inl r => r
  | .inr t => trimSpaceRight t.reverse

/-! ## What trimming removes -/

/-- A byte trimming may remove from the end: ASCII white space, or a byte of a multi-byte
rune. -/
def spaceish (b : UInt8) : Bool := asciiSpace b || 0x80 ≤ b.toNat

/-- `t` is `s` less a prefix and a suffix of `spaceish` bytes. -/
def TrimmedOf (s t : GoString) : Prop :=
  ∃ u v, s = u ++ t ++ v ∧ ∀ b ∈ v, spaceish b

theorem TrimmedOf.trans {s m t : GoString} (h₁ : TrimmedOf s m) (h₂ : TrimmedOf m t) :
    TrimmedOf s t := by
  obtain ⟨u, v, rfl, hv⟩ := h₁
  obtain ⟨u', v', rfl, hv'⟩ := h₂
  exact ⟨u ++ u', v' ++ v, by simp, by simp only [List.mem_append]; rintro b (hb | hb) <;> simp_all⟩

theorem isSpace_ascii {r : Nat} (hlt : r < 0x80) (h : isSpace r) : r = 0x09 ∨ r = 0x0A ∨
    r = 0x0B ∨ r = 0x0C ∨ r = 0x0D ∨ r = 0x20 := by
  simp only [isSpace, show r ≤ 0xFF by omega, if_true, Bool.or_eq_true, decide_eq_true_eq] at h
  omega

/-- The last rune of a string: its width, the bytes after its first (all `0x80` or above),
and, for a white-space rune, all its bytes `spaceish`. -/
theorem decodeLastRune_spaceish {s : GoString} (hs : s ≠ []) :
    1 ≤ (decodeLastRune s).2 ∧ (decodeLastRune s).2 ≤ s.length ∧
      (∀ b ∈ s.drop (s.length - (decodeLastRune s).2 + 1), spaceish b) ∧
      (isSpace (decodeLastRune s).1 → ∀ b ∈ s.drop (s.length - (decodeLastRune s).2),
        spaceish b) := by
  have hpos : 0 < s.length := List.length_pos.mpr hs
  rcases decodeLastRune_shape hs with ⟨b, hl, hlt, h⟩ | h | ⟨h1, h2, h3⟩
  · have hd := drop_length_sub_one hl
    rw [h]
    refine ⟨le_rfl, hpos, by rw [List.drop_eq_nil_of_le (by omega)]; simp, fun hsp c hc => ?_⟩
    rw [hd, List.mem_singleton] at hc
    subst hc
    have := isSpace_ascii hlt hsp
    simp only [spaceish, asciiSpace, Bool.or_eq_true, decide_eq_true_eq]
    omega
  · rw [h]
    refine ⟨le_rfl, hpos, by rw [List.drop_eq_nil_of_le (by omega)]; simp,
      fun hsp => absurd hsp (by decide)⟩
  · refine ⟨by omega, h2, fun b hb => ?_, fun _ b hb => ?_⟩
    · have : b ∈ s.drop (s.length - (decodeLastRune s).2) :=
        (List.drop_sublist 1 _).subset (by simpa [List.drop_drop] using hb)
      simp [spaceish, h3 b this]
    · simp [spaceish, h3 b hb]

theorem forall_mem_drop_of_take {P : UInt8 → Prop} {s : GoString} {k m : Nat} (hkm : k ≤ m)
    (hm : m ≤ s.length) (h₁ : ∀ b ∈ (s.take m).drop k, P b) (h₂ : ∀ b ∈ s.drop m, P b) :
    ∀ b ∈ s.drop k, P b := by
  rw [← List.take_append_drop m s, List.drop_append_of_le_length (by simp; omega)]
  simp only [List.mem_append]
  rintro b (hb | hb)
  · exact h₁ b hb
  · exact h₂ b hb

/-- `lastIndexFunc` stops at a rune whose later bytes are `spaceish`, after only white-space
runes; when it finds none, every byte is `spaceish`. -/
theorem lastIndexNot_spec : ∀ (fuel : Nat) (s : GoString), s.length ≤ fuel →
    (∀ i, lastIndexNot isSpace fuel s = some i → i < s.length ∧ ∀ b ∈ s.drop (i + 1), spaceish b) ∧
    (lastIndexNot isSpace fuel s = none → ∀ b ∈ s, spaceish b)
  | 0, s, h => by
    rw [List.eq_nil_of_length_eq_zero (by omega : s.length = 0)]
    simp [lastIndexNot]
  | _ + 1, [], _ => by simp [lastIndexNot]
  | fuel + 1, b :: rest, hlen => by
    simp only [List.length_cons] at hlen
    obtain ⟨hw1, hw2, htail, hsp⟩ := decodeLastRune_spaceish (List.cons_ne_nil b rest)
    simp only [List.length_cons] at hw2 htail hsp
    simp only [lastIndexNot]
    split_ifs with hs
    · have ih := lastIndexNot_spec fuel ((b :: rest).take (rest.length + 1 - (decodeLastRune (b :: rest)).2))
        (by simp; omega)
      refine ⟨fun i hi => ?_, fun hn => ?_⟩
      · obtain ⟨hi1, hi2⟩ := ih.1 i hi
        simp only [List.length_take, List.length_cons] at hi1
        exact ⟨by simp; omega, forall_mem_drop_of_take (by omega) (by simp) hi2 (hsp hs)⟩
      · have := forall_mem_drop_of_take (Nat.zero_le _) (by simp) (by simpa using ih.2 hn)
          (hsp hs)
        simpa using this
    · refine ⟨fun i hi => ?_, fun hn => by simp at hn⟩
      cases hi
      exact ⟨by simp; omega, htail⟩

theorem trimmedOf_take {s : GoString} {i stop : Nat} (hsp : ∀ b ∈ s.drop (i + 1), spaceish b)
    (h : i + 1 ≤ stop) : TrimmedOf s (s.take stop) := by
  refine ⟨[], s.drop stop, by simp, fun b hb => hsp b ?_⟩
  rw [← Nat.add_sub_cancel' h, ← List.drop_drop] at hb
  exact (List.drop_sublist _ _).subset hb

/-- `TrimRightFunc(s, unicode.IsSpace)` removes a `spaceish` suffix. -/
theorem trimmedOf_trimRightFunc (s : GoString) : TrimmedOf s (trimRightFunc isSpace s) := by
  obtain ⟨hsome, hnone⟩ := lastIndexNot_spec s.length s le_rfl
  unfold trimRightFunc
  split
  · rename_i i hi
    obtain ⟨hlt, hsp⟩ := hsome i hi
    apply trimmedOf_take hsp
    obtain ⟨b0, rest, hd⟩ := List.exists_cons_of_ne_nil (by simp; omega : s.drop i ≠ [])
    have := (decodeRune_width b0 rest).1
    split_ifs <;> simp_all
  · exact ⟨[], s, by simp, hnone ‹_›⟩

theorem trimmedOf_trimLeftFunc (f : Nat → Bool) (s : GoString) :
    TrimmedOf s (trimLeftFunc f s) := by
  unfold trimLeftFunc
  split
  · rename_i i _
    exact ⟨s.take i, [], by simp, by simp⟩
  · exact ⟨s, [], by simp, by simp⟩

theorem trimmedOf_trimSpaceLeft : ∀ s : GoString,
    (∀ r, trimSpaceLeft s = .inl r → TrimmedOf s r) ∧
    (∀ t, trimSpaceLeft s = .inr t → TrimmedOf s t)
  | [] => ⟨fun r h => (by cases h), fun t h => by cases h; exact ⟨[], [], rfl, by simp⟩⟩
  | c :: rest => by
    unfold trimSpaceLeft
    split_ifs with h1 h2
    · refine ⟨fun r h => ?_, fun t h => by cases h⟩
      cases h
      exact (trimmedOf_trimLeftFunc _ _).trans (trimmedOf_trimRightFunc _)
    · obtain ⟨hl, hr⟩ := trimmedOf_trimSpaceLeft rest
      refine ⟨fun r h => ?_, fun t h => ?_⟩
      · obtain ⟨u, v, he, hv⟩ := hl r h
        exact ⟨c :: u, v, by simp [he], hv⟩
      · obtain ⟨u, v, he, hv⟩ := hr t h
        exact ⟨c :: u, v, by simp [he], hv⟩
    · exact ⟨fun r h => (by cases h), fun t h => by cases h; exact ⟨[], [], by simp, by simp⟩⟩

theorem trimmedOf_trimSpaceRight : ∀ l : GoString, TrimmedOf l.reverse (trimSpaceRight l)
  | [] => ⟨[], [], rfl, by simp⟩
  | c :: restRev => by
    unfold trimSpaceRight
    split_ifs with h1 h2
    · exact trimmedOf_trimRightFunc _
    · obtain ⟨u, v, he, hv⟩ := trimmedOf_trimSpaceRight restRev
      refine ⟨u, v ++ [c], by simp [he], ?_⟩
      simp only [List.mem_append, List.mem_singleton]
      rintro b (hb | rfl)
      · exact hv b hb
      · simp [spaceish, h2]
    · exact ⟨[], [], by simp, by simp⟩

/-- **`TrimSpace` removes a prefix and a `spaceish` suffix.** -/
theorem trimmedOf_trimSpace (s : GoString) : TrimmedOf s (trimSpace s) := by
  unfold trimSpace
  split
  · exact (trimmedOf_trimSpaceLeft s).1 _ ‹_›
  · rename_i t ht
    have := trimmedOf_trimSpaceRight t.reverse
    rw [List.reverse_reverse] at this
    exact ((trimmedOf_trimSpaceLeft s).2 t ht).trans this

theorem TrimmedOf.isInfix {s t : GoString} (h : TrimmedOf s t) : t <:+: s := by
  obtain ⟨u, v, rfl, -⟩ := h
  exact ⟨u, v, rfl⟩

theorem TrimmedOf.sublist {s t : GoString} (h : TrimmedOf s t) : List.Sublist t s :=
  h.isInfix.sublist


/-! ## Trimming twice -/

theorem isSpace_runeError : isSpace runeError = false := by decide

theorem isSpace_of_asciiSpace {b : UInt8} (h : asciiSpace b) : isSpace b.toNat := by
  simp only [asciiSpace, Bool.or_eq_true, decide_eq_true_eq] at h
  simp only [isSpace, show b.toNat ≤ 0xFF by omega, if_true, Bool.or_eq_true, decide_eq_true_eq]
  omega

theorem indexNot_decode (f : Nat → Bool) : ∀ (x : GoString) (i : Nat),
    indexNot f (decode x) = some i → ∃ pc Q, decode (x.drop i) = pc :: Q ∧ f pc.rune = false
  | [], i, h => by simp [decode, decodeAux, indexNot] at h
  | b :: s, i, h => by
    have hw := decodeRune_width b s
    rw [decode_cons] at h
    simp only [indexNot] at h
    split_ifs at h with hf
    · obtain ⟨j, hj, rfl⟩ := Option.map_eq_some'.mp h
      obtain ⟨pc, Q, hQ, hpc⟩ := indexNot_decode f _ j hj
      refine ⟨pc, Q, ?_, hpc⟩
      rw [List.drop_drop] at hQ
      rwa [List.length_take, Nat.min_eq_left (by simp; omega)]
    · cases h
      exact ⟨_, _, by rw [List.drop_zero, decode_cons], by simpa using hf⟩
termination_by x => x.length
decreasing_by simp only [List.length_drop, List.length_cons]; omega

/-- `TrimLeftFunc` returns nothing, or text whose first rune fails `f`. -/
theorem trimLeftFunc_head (f : Nat → Bool) (x : GoString) :
    trimLeftFunc f x = [] ∨ f (decodeRune (trimLeftFunc f x)).1 = false := by
  unfold trimLeftFunc
  split
  · rename_i i hi
    obtain ⟨pc, Q, hQ, hpc⟩ := indexNot_decode f x i hi
    have hne : x.drop i ≠ [] := fun h => by rw [h] at hQ; cases hQ
    obtain ⟨b, t, hbt⟩ := List.exists_cons_of_ne_nil hne
    rw [hbt, decode_cons] at hQ
    obtain ⟨rfl, -⟩ := List.cons.inj hQ
    exact .inr (by rw [hbt]; exact hpc)
  · exact .inl rfl

theorem trimLeftFunc_of_head {f : Nat → Bool} {y : GoString} (h : f (decodeRune y).1 = false) :
    trimLeftFunc f y = y := by
  cases y with
  | nil => rfl
  | cons b s => simp [trimLeftFunc, decode_cons, indexNot, h]

/-- `lastIndexFunc` stops at the end `e` of a prefix whose last rune fails `isSpace`; the runes it
passed are white space, so the byte at `e` starts one and is not a continuation byte. -/
theorem lastIndexNot_stop : ∀ (fuel : Nat) (s : GoString) (i : Nat), s.length ≤ fuel →
    lastIndexNot isSpace fuel s = some i →
      ∃ e, 0 < e ∧ e ≤ s.length ∧ i = e - (decodeLastRune (s.take e)).2 ∧
        isSpace (decodeLastRune (s.take e)).1 = false ∧ ∀ a ∈ (s.drop e).head?, ¬isCont a
  | 0, _, _, _, h => by simp [lastIndexNot] at h
  | _ + 1, [], _, _, h => by simp [lastIndexNot] at h
  | fuel + 1, b :: rest, i, hlen, h => by
    obtain ⟨hw1, hw2, -, -⟩ := decodeLastRune_spaceish (List.cons_ne_nil b rest)
    simp only [lastIndexNot] at h
    split_ifs at h with hs
    · set m := rest.length + 1 - (decodeLastRune (b :: rest)).2 with hm
      simp only [List.length_cons] at hlen hw2
      obtain ⟨e, he0, hem, rfl, hsp, hhead⟩ :=
        lastIndexNot_stop fuel ((b :: rest).take m) i (by simp; omega) h
      simp only [List.length_take, List.length_cons] at hem
      refine ⟨e, he0, by simp; omega, by rw [List.take_take, Nat.min_eq_left (by omega)],
        by rwa [List.take_take, Nat.min_eq_left (by omega)] at hsp, ?_⟩
      by_cases hlt : e < m
      · simpa [List.getElem?_take_of_lt hlt] using hhead
      · have hem' : e = m := by omega
        subst hem'
        exact ((decodeLastRune_forward (List.cons_ne_nil b rest)).2
          (fun h => by simp [h, isSpace_runeError] at hs)).2
    · cases h
      exact ⟨rest.length + 1, by omega, le_rfl, by simp, by simpa using hs, by simp⟩

/-- The end `TrimRightFunc` computes from where the last rune starts is the end of the string:
the last rune read forward has the width it has read backward. -/
theorem rightEnd_eq_length {q : GoString} (hq : q ≠ []) :
    (if 0x80 ≤ (q.getD (q.length - (decodeLastRune q).2) 0).toNat then
        q.length - (decodeLastRune q).2 + (decodeRune (q.drop (q.length - (decodeLastRune q).2))).2
      else q.length - (decodeLastRune q).2 + 1) = q.length := by
  obtain ⟨hw1, hw2, -, -⟩ := decodeLastRune_spaceish hq
  have hfwd := (decodeLastRune_forward hq).1
  obtain ⟨c, t, hct⟩ := List.exists_cons_of_ne_nil
    (by simp; omega : q.drop (q.length - (decodeLastRune q).2) ≠ [])
  have hc : q.getD (q.length - (decodeLastRune q).2) 0 = c := by
    simp only [List.getD_eq_getElem?_getD, ← List.head?_drop, hct, List.head?_cons,
      Option.getD_some]
  rw [hc]
  split_ifs with hc8
  · omega
  · rw [hct] at hfwd
    have : (decodeRune (c :: t)).2 = 1 := by simp [decodeRune, show c.toNat < 0x80 by omega]
    omega

/-- `TrimRightFunc` keeps a string whose last rune fails `f`. -/
theorem trimRightFunc_of_last {f : Nat → Bool} {q : GoString} (hq : q ≠ [])
    (h : f (decodeLastRune q).1 = false) : trimRightFunc f q = q := by
  have hlast : lastIndexNot f q.length q = some (q.length - (decodeLastRune q).2) := by
    obtain ⟨b, rest, rfl⟩ := List.exists_cons_of_ne_nil hq
    simp [lastIndexNot, h]
  unfold trimRightFunc
  rw [hlast]
  dsimp only
  rw [rightEnd_eq_length hq, List.take_length]

/-- `TrimRightFunc(p, unicode.IsSpace)` returns nothing, or a prefix of `p` whose last rune is not
white space. -/
theorem trimRightFunc_stop (p : GoString) :
    trimRightFunc isSpace p = [] ∨ ∃ e, 0 < e ∧ e ≤ p.length ∧
      trimRightFunc isSpace p = p.take e ∧ isSpace (decodeLastRune (p.take e)).1 = false := by
  unfold trimRightFunc
  split
  · rename_i i hi
    obtain ⟨e, he0, hep, rfl, hsp, hhead⟩ := lastIndexNot_stop p.length p _ le_rfl hi
    refine .inr ⟨e, he0, hep, ?_, hsp⟩
    have hq : p.take e ≠ [] := by
      simp only [ne_eq, List.take_eq_nil_iff, not_or]
      exact ⟨by omega, fun h => by simp [h] at hep; omega⟩
    obtain ⟨hw1, hw2, -, -⟩ := decodeLastRune_spaceish hq
    simp only [List.length_take, Nat.min_eq_left hep] at hw2
    -- the last rune of `p.take e` starts at `e - w`; read there in `p`, it is the same rune
    have hsame : decodeRune ((p.take e).drop (e - (decodeLastRune (p.take e)).2)) =
        decodeRune (p.drop (e - (decodeLastRune (p.take e)).2)) := by
      rw [List.drop_take]
      exact decodeRune_take_of_head (by omega)
        (by rwa [List.drop_drop, Nat.add_sub_cancel' (Nat.sub_le e _)])
    have hget : (p.take e).getD (e - (decodeLastRune (p.take e)).2) 0 =
        p.getD (e - (decodeLastRune (p.take e)).2) 0 := by
      simp [List.getElem?_take_of_lt (show e - (decodeLastRune (p.take e)).2 < e by omega)]
    have hend := rightEnd_eq_length hq
    rw [List.length_take, Nat.min_eq_left hep, hsame, hget] at hend
    rw [hend]
  · exact .inl rfl

/-- Text that `TrimSpace` leaves as it is: its first rune, read forward, and its last rune, read
backward, are not white space (the empty string reads `RuneError` both ways). -/
def Trimmed (R : GoString) : Prop :=
  isSpace (decodeRune R).1 = false ∧ isSpace (decodeLastRune R).1 = false

instance (R : GoString) : Decidable (Trimmed R) := inferInstanceAs (Decidable (_ ∧ _))

/-- **`TrimSpace` keeps trimmed text.** -/
theorem trimSpace_of_trimmed {R : GoString} (h : Trimmed R) : trimSpace R = R := by
  obtain ⟨hfirst, hlast⟩ := h
  rcases R with _ | ⟨c, rest⟩
  · rfl
  have hR : trimRightFunc isSpace (c :: rest) = c :: rest :=
    trimRightFunc_of_last (List.cons_ne_nil c rest) hlast
  unfold trimSpace trimSpaceLeft
  split_ifs with hc hsp
  · simp only [trimFunc, trimLeftFunc_of_head hfirst, hR]
  · have : isSpace c.toNat := isSpace_of_asciiSpace hsp
    simp [decodeRune, show c.toNat < 0x80 by omega, this] at hfirst
  · obtain ⟨d, restRev, hd⟩ : ∃ d restRev, (c :: rest).reverse = d :: restRev :=
      List.exists_cons_of_ne_nil (by simp)
    dsimp only
    rw [hd]
    unfold trimSpaceRight
    rw [← hd, List.reverse_reverse]
    split_ifs with hd8 hdsp
    · exact hR
    · have hl : (c :: rest).getLast? = some d := by
        rw [List.getLast?_eq_head?_reverse, hd]; rfl
      have : decodeLastRune (c :: rest) = (d.toNat, 1) := by
        simp [decodeLastRune, hl, show d.toNat < 0x80 by omega]
      simp [this, isSpace_of_asciiSpace hdsp] at hlast
    · rfl

theorem trimmed_nil : Trimmed [] := ⟨isSpace_runeError, isSpace_runeError⟩

theorem isSpace_of_not_asciiSpace {c : UInt8} (hlt : c.toNat < 0x80) (h : asciiSpace c = false) :
    isSpace c.toNat = false :=
  Bool.eq_false_iff.mpr fun hs => by
    have := isSpace_ascii hlt hs
    simp only [asciiSpace, Bool.or_eq_false_iff, decide_eq_false_iff_not] at h
    omega

/-- Text starting with an ASCII byte that is not white space starts with a rune that is not. -/
theorem decodeRune_not_space {c : UInt8} {rest : GoString} (hlt : c.toNat < 0x80)
    (h : asciiSpace c = false) : isSpace (decodeRune (c :: rest)).1 = false := by
  simp [decodeRune, hlt, isSpace_of_not_asciiSpace hlt h]

theorem trimmed_trimRightFunc {y : GoString} (h : isSpace (decodeRune y).1 = false) :
    Trimmed (trimRightFunc isSpace y) := by
  rcases trimRightFunc_stop y with h0 | ⟨e, he0, hey, heq, hsp⟩
  · rw [h0]
    exact trimmed_nil
  rw [heq]
  refine ⟨?_, hsp⟩
  obtain ⟨b, t, rfl⟩ := List.exists_cons_of_ne_nil (fun h => by simp [h] at hey; omega : y ≠ [])
  obtain ⟨e, rfl⟩ : ∃ k, e = k + 1 := ⟨e - 1, by omega⟩
  rcases decodeRune_take b t e with h' | h' <;> rw [List.take_succ_cons, h']
  · exact h
  · exact isSpace_runeError

theorem trimmed_trimSpaceLeft : ∀ (s r : GoString), trimSpaceLeft s = .inl r → Trimmed r
  | [], _, h => by cases h
  | c :: rest, r, h => by
    unfold trimSpaceLeft at h
    split_ifs at h
    · cases h
      rcases trimLeftFunc_head isSpace (c :: rest) with h' | h' <;>
        simp only [trimFunc, h']
      · exact trimmed_nil
      · exact trimmed_trimRightFunc h'
    · exact trimmed_trimSpaceLeft rest r h

theorem head_trimSpaceLeft : ∀ (s t : GoString), trimSpaceLeft s = .inr t →
    ∀ c ∈ t.head?, c.toNat < 0x80 ∧ asciiSpace c = false
  | [], _, h => by cases h; simp
  | c :: rest, t, h => by
    unfold trimSpaceLeft at h
    split_ifs at h with h8 hsp
    · exact head_trimSpaceLeft rest t h
    · cases h
      simp only [List.head?_cons, Option.mem_def, Option.some.injEq, forall_eq']
      exact ⟨by omega, by simpa using hsp⟩

theorem trimmed_trimSpaceRight : ∀ l : GoString,
    (∀ c ∈ l.reverse.head?, c.toNat < 0x80 ∧ asciiSpace c = false) → Trimmed (trimSpaceRight l)
  | [], _ => trimmed_nil
  | d :: restRev, h => by
    obtain ⟨c, t, hct⟩ : ∃ c t, (d :: restRev).reverse = c :: t :=
      List.exists_cons_of_ne_nil (by simp)
    obtain ⟨hc8, hcsp⟩ := h c (by simp [hct])
    unfold trimSpaceRight
    split_ifs with hd8 hdsp
    · rw [hct]
      exact trimmed_trimRightFunc (decodeRune_not_space hc8 hcsp)
    · refine trimmed_trimSpaceRight restRev fun c' hc' => h c' ?_
      simp only [List.reverse_cons, List.head?_append, Option.mem_def] at hc' ⊢
      simp [hc']
    · have hl : (c :: t).getLast? = some d := by
        rw [← hct, List.getLast?_reverse]; rfl
      have hlast : decodeLastRune (c :: t) = (d.toNat, 1) := by
        simp [decodeLastRune, hl, show d.toNat < 0x80 by omega]
      rw [hct]
      exact ⟨decodeRune_not_space hc8 hcsp,
        by rw [hlast]; exact isSpace_of_not_asciiSpace (by omega) (by simpa using hdsp)⟩

/-- **`TrimSpace` returns trimmed text.** -/
theorem trimmed_trimSpace (s : GoString) : Trimmed (trimSpace s) := by
  unfold trimSpace
  split
  · exact trimmed_trimSpaceLeft s _ ‹_›
  · rename_i t ht
    exact trimmed_trimSpaceRight t.reverse (by simpa using head_trimSpaceLeft s t ht)

/-- **`TrimSpace` is idempotent.** -/
theorem trimSpace_trimSpace (s : GoString) : trimSpace (trimSpace s) = trimSpace s :=
  trimSpace_of_trimmed (trimmed_trimSpace s)

end Strings

namespace Html

open Strings

theorem entity_getLast : ∀ e ∈ entities, e.tail.getLast? = some 0x3B ∧ spaceish 0x3B = false := by
  decide

/-- **Trimming a `spaceish` suffix cannot cut an entity**, whose last byte, `;`, is not
`spaceish`. -/
theorem ampOk_of_trimmedOf {s t : GoString} (hs : AmpOk s) (ht : TrimmedOf s t) : AmpOk t := by
  obtain ⟨u, v, rfl, hv⟩ := ht
  intro u' v' h
  obtain ⟨e, he, hpre⟩ := hs (u ++ u') (v' ++ v) (by simp [h])
  refine ⟨e, he, ?_⟩
  obtain ⟨hlast, hsemi⟩ := entity_getLast e he
  obtain ⟨z, hz⟩ := hpre
  rcases e with _ | ⟨x, e'⟩
  · simp at hlast
  simp only [List.cons_append, List.cons.injEq] at hz
  obtain ⟨rfl, hz⟩ := hz
  rcases List.append_eq_append_iff.mp hz with ⟨a', hv', -⟩ | ⟨c', he', hvz⟩
  · exact ⟨a', by simp [hv']⟩
  · rcases c' with _ | ⟨y, c''⟩
    · exact ⟨[], by simp [he']⟩
    · rw [List.tail_cons, he', List.getLast?_append] at hlast
      have hne : (y :: c'').getLast? = some 0x3B := by
        cases h : (y :: c'').getLast? with
        | none => simp at h
        | some a => simpa [h] using hlast
      have := hv 0x3B (by rw [hvz]; exact List.mem_append_left _ (List.mem_of_getLast?_eq_some hne))
      simp_all

end Html

end Adele
