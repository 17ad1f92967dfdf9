import Adele.Go.Regexp
import Adele.Go.Text

/-!
# The sanitizers

Model of `CleanXSS`, `CleanInjection`, `CleanPathTraversal`, `CleanAll` and `Sanitize`
(`src/unnamed/part_001:75-228`) and of the six expressions they compile (`part_001:9-23`).

* Each expression is written item by item from its pattern. Under `(?i)` a literal matches its
  case-folding orbit (`foldLit`) and `\w` its folded class (`foldWord`); `\s` is Go's Perl class
  `[\t\n\f\r ]`, which leaves out `\v`; `.` is any rune but `\n`. Code points stand for the
  punctuation, with the character in the docstring.
* `(h *Helpers) Sanitize` and the other methods call the package functions; `sanitize` is
  `cleanAll`.

Results:
* `cleanAll_alphabet` — the output alphabet of the cleaners, for every input, invalid UTF-8
  included.
* `cleanXSS_no_scriptTag` — no match of `scriptTagRegex` survives `CleanXSS` or `CleanAll`.
* `cleanInjection_sublist` — `CleanInjection` and `CleanPathTraversal` only delete.
* `cleanInjection_idempotent` — `CleanInjection` deletes exactly the bytes of its two ASCII
  classes and trims, and cleaning its output again changes nothing.
* `cleaners_trimmed` — no cleaner returns text that starts or ends with white space.
* `cleanXSS_length_le` — `CleanXSS` and `CleanAll` return at most five bytes per input byte.
* `cleanInjection_eq_self_iff` — the inputs `CleanInjection` leaves as they are: trimmed text
  without a byte of its two classes.
* `cleanPathTraversal_rebuilds`, `cleanXSS_rebuilds_onEvent`, `cleanAll_rebuilds_javascript` —
  one left-to-right pass, or a later pass, joins text around a removed match into a new match.
-/

namespace Adele

namespace Helpers

open Regexp Utf8

/-- Perl `\s` in Go's syntax, `[\t\n\f\r ]`. -/
def perlSpace (r : Nat) : Bool := r = 0x09 || r = 0x0A || r = 0x0C || r = 0x0D || r = 0x20

/-- `\w` under `(?i)`: `[0-9A-Za-z_]` with the runes that fold onto its letters, `ſ` (U+017F)
and the Kelvin sign (U+212A). -/
def foldWord (r : Nat) : Bool :=
  (0x30 ≤ r && r ≤ 0x39) || (0x41 ≤ r && r ≤ 0x5A) || (0x61 ≤ r && r ≤ 0x7A) || r = 0x5F ||
    r = 0x17F || r = 0x212A

/-- A literal under `(?i)`: its simple case-folding orbit. An ASCII letter matches both cases;
`s` also matches `ſ` (U+017F), and `k` the Kelvin sign (U+212A). -/
def foldLit (c : Char) (r : Nat) : Bool :=
  if c.isAlpha then
    r = c.toLower.toNat || r = c.toUpper.toNat || (c.toLower = 's' && r = 0x17F) ||
      (c.toLower = 'k' && r = 0x212A)
  else r = c.toNat

/-- The runes a literal matches: its two cases, the character itself, and `ſ` for `s` and the
Kelvin sign for `k`. -/
theorem foldLit_cases {c : Char} {r : Nat} (h : foldLit c r) :
    r ∈ [c.toLower.toNat, c.toUpper.toNat, c.toNat] ∨ (c.toLower = 's' ∧ r = 0x17F) ∨
      (c.toLower = 'k' ∧ r = 0x212A) := by
  unfold foldLit at h
  split at h <;> simp only [Bool.or_eq_true, decide_eq_true_eq, Bool.and_eq_true] at h
  · rcases h with ((rfl | rfl) | h) | h <;> simp [*]
  · simp [h]

/-- A literal string under `(?i)`, one item per character. -/
def foldString (s : String) : List Item := s.toList.map fun c => ⟨foldLit c, .one⟩

/-- One rune, matched once. -/
def lit (n : Nat) : Item := ⟨fun r => r == n, .one⟩

/-- `scriptTagRegex`, `(?i)<script[^>]*>.*?</script>`. -/
def scriptTagRegex : Regexp :=
  ⟨[foldString "<script" ++ [⟨fun r => r != 0x3E, .star⟩] ++ foldString ">" ++
    [⟨fun r => r != 0x0A, .lazyStar⟩] ++ foldString "</script>"]⟩

/-- `\s*on\w+\s*=\s*`, the head every alternative of `onEventRegex` starts with (the third
without its last `\s*`). -/
def onEventHead : List Item :=
  [⟨perlSpace, .star⟩] ++ foldString "on" ++ [⟨foldWord, .plus⟩, ⟨perlSpace, .star⟩] ++
    foldString "="

/-- `onEventRegex`,
`(?i)\s*on\w+\s*=\s*"[^"]*"|\s*on\w+\s*=\s*'[^']*'|\s*on\w+\s*=[^\s>]*`; `0x22` is `"` and
`0x27` is `'`. -/
def onEventRegex : Regexp :=
  ⟨[onEventHead ++ [⟨perlSpace, .star⟩, lit 0x22, ⟨fun r => r != 0x22, .star⟩, lit 0x22],
    onEventHead ++ [⟨perlSpace, .star⟩, lit 0x27, ⟨fun r => r != 0x27, .star⟩, lit 0x27],
    onEventHead ++ [⟨fun r => !perlSpace r && r != 0x3E, .star⟩]]⟩

/-- `javascriptRegex`, `(?i)javascript:[^"'\s>]*`. -/
def javascriptRegex : Regexp :=
  ⟨[foldString "javascript:" ++
    [⟨fun r => r != 0x22 && r != 0x27 && !perlSpace r && r != 0x3E, .star⟩]]⟩

/-- The class of `controlCharsRegex`, `[\x00-\x08\x0B\x0C\x0E-\x1F\x7F]`. -/
def controlChar (r : Nat) : Bool :=
  r ≤ 0x08 || r = 0x0B || r = 0x0C || (0x0E ≤ r && r ≤ 0x1F) || r = 0x7F

/-- `controlCharsRegex`. -/
def controlCharsRegex : Regexp := single controlChar

/-- The class of `ldapCharsRegex`, `[()&|!]`. -/
def ldapChar (r : Nat) : Bool := r = 0x28 || r = 0x29 || r = 0x26 || r = 0x7C || r = 0x21

/-- `ldapCharsRegex`. -/
def ldapCharsRegex : Regexp := single ldapChar

/-- `pathTraversalRegex`, `\.\.[\\/]`. -/
def pathTraversalRegex : Regexp := ⟨[[lit 0x2E, lit 0x2E, ⟨fun r => r = 0x5C || r = 0x2F, .one⟩]]⟩

/-- `CleanXSS` (`part_001:153-171`). -/
def cleanXSS (input : GoString) : GoString :=
  if input = [] then input
  else
    let input := scriptTagRegex.replaceAllString input
    let input := onEventRegex.replaceAllString input
    let input := javascriptRegex.replaceAllString input
    let input := Html.escapeString input
    Strings.trimSpace input

/-- `CleanInjection` (`part_001:174-186`). -/
def cleanInjection (input : GoString) : GoString :=
  if input = [] then input
  else
    let input := controlCharsRegex.replaceAllString input
    let input := ldapCharsRegex.replaceAllString input
    Strings.trimSpace input

/-- `CleanPathTraversal` (`part_001:189-198`). -/
def cleanPathTraversal (input : GoString) : GoString :=
  if input = [] then input
  else
    let input := pathTraversalRegex.replaceAllString input
    Strings.trimSpace input

/-- `CleanAll` (`part_001:201-228`). -/
def cleanAll (input : GoString) : GoString :=
  if input = [] then input
  else
    let input := scriptTagRegex.replaceAllString input
    let input := onEventRegex.replaceAllString input
    let input := javascriptRegex.replaceAllString input
    let input := controlCharsRegex.replaceAllString input
    let input := ldapCharsRegex.replaceAllString input
    let input := pathTraversalRegex.replaceAllString input
    let input := Html.escapeString input
    Strings.trimSpace input

/-- `(h *Helpers) Sanitize` (`part_001:75-79`). -/
def sanitize (input : GoString) : GoString := cleanAll input

/-! ## Matches the passes rebuild

Each pass is one left-to-right `ReplaceAllString`, and the passes run once each, in a fixed
order. Text on the two sides of a removed match, or around a byte a later pass removes, can join
into a new match that nothing removes. -/

/-- `....//etc/passwd`: the pass removes the `../` at offset 2, and the dots before it meet the
slash after it. -/
theorem cleanPathTraversal_rebuilds :
    cleanPathTraversal (ascii "....//etc/passwd") = ascii "../etc/passwd" ∧
      cleanAll (ascii "....//etc/passwd") = ascii "../etc/passwd" ∧
      pathTraversalRegex.matchString (ascii "../etc/passwd") = true := by decide

/-- The quoted handler `onclick=""` is removed from inside the name of another, whose two halves
then meet. -/
theorem cleanXSS_rebuilds_onEvent :
    cleanXSS (ascii "oonclick=\"\"nclick=alert(1)") = ascii "onclick=alert(1)" ∧
      cleanAll (ascii "oonclick=\"\"nclick=alert(1)") = ascii "onclick=alert1" ∧
      onEventRegex.matchString (ascii "onclick=alert(1)") = true ∧
      onEventRegex.matchString (ascii "onclick=alert1") = true := by decide

/-- A NUL inside the keyword hides it from the `javascript:` pass; the control-character pass
after it removes the NUL. -/
theorem cleanAll_rebuilds_javascript :
    cleanAll (ascii "java\x00script:alert(1)") = ascii "javascript:alert1" ∧
      javascriptRegex.matchString (ascii "javascript:alert1") = true := by decide

/-! ## The output alphabet -/

theorem controlChar_ascii {r : Nat} (h : controlChar r) : r < 0x80 := by
  simp only [controlChar, Bool.or_eq_true, Bool.and_eq_true, decide_eq_true_eq] at h
  omega

theorem ldapChar_ascii {r : Nat} (h : ldapChar r) : r < 0x80 := by
  simp only [ldapChar, Bool.or_eq_true, decide_eq_true_eq] at h
  omega

/-- A byte that survives a pass of a one-class expression is not of the class. -/
theorem class_false_of_mem_single {c : Nat → Bool} {src : GoString} {b : UInt8}
    (hb : b ∈ (single c).replaceAllString src) (hascii : c b.toNat → b.toNat < 0x80) :
    c b.toNat = false :=
  Bool.eq_false_iff.mpr fun h => not_mem_replaceAllString_single (hascii h) h hb

theorem mem_escapeString {Y : GoString} {b : UInt8} (h : b ∈ Html.escapeString Y) :
    b ∈ Y ∨ ∃ e ∈ Html.entities, b ∈ e := by
  simp only [Html.escapeString, List.mem_flatMap] at h
  obtain ⟨c, hc, hb⟩ := h
  rcases Html.escapeByte_cases c with he | ⟨he, -, -⟩
  · exact .inr ⟨_, he, hb⟩
  · rw [he, List.mem_singleton] at hb
    exact .inl (hb ▸ hc)

theorem entity_bytes : ∀ e ∈ Html.entities, ∀ b ∈ e,
    controlChar b.toNat = false ∧ b ∉ ascii "()|!" := by decide

theorem ldap_of_mem {b : UInt8} (h : b ∈ ascii "()|!") : ldapChar b.toNat := by
  revert b h
  decide

/-- The passes before `html.EscapeString` in `CleanXSS` and `CleanAll` can leave anything: the
escape and the trim alone keep `<>"'` out and every `&` at the start of an entity. -/
theorem trimSpace_escapeString (Y : GoString) :
    (∀ b ∈ Strings.trimSpace (Html.escapeString Y), Html.special b = false) ∧
      Html.AmpOk (Strings.trimSpace (Html.escapeString Y)) :=
  ⟨fun b hb => Html.escapeString_no_special Y b ((Strings.trimmedOf_trimSpace _).sublist.subset hb),
    Html.ampOk_of_trimmedOf (Html.ampOk_escapeString Y) (Strings.trimmedOf_trimSpace _)⟩

/-- **The output alphabet of the cleaners.** For every input, invalid UTF-8 included:
`CleanXSS` and `CleanAll` leave none of `<>"'` and every `&` at the start of one of the five
entities; `CleanInjection` and `CleanAll` leave no control character of `controlCharsRegex`
and none of `()|!`; `CleanInjection` leaves no `&` either. -/
theorem cleanAll_alphabet (s : GoString) :
    (∀ b ∈ cleanXSS s, Html.special b = false) ∧ Html.AmpOk (cleanXSS s) ∧
    (∀ b ∈ cleanAll s, Html.special b = false) ∧ Html.AmpOk (cleanAll s) ∧
    (∀ b ∈ cleanInjection s, controlChar b.toNat = false ∧ b ∉ ascii "()|!" ∧ b ≠ 0x26) ∧
    (∀ b ∈ cleanAll s, controlChar b.toNat = false ∧ b ∉ ascii "()|!") := by
  by_cases hs : s = []
  · subst hs
    refine ⟨?_, ?_, ?_, ?_, ?_, ?_⟩ <;> simp [cleanXSS, cleanAll, cleanInjection, Html.AmpOk]
  simp only [cleanXSS, cleanAll, cleanInjection, hs, if_false]
  refine ⟨(trimSpace_escapeString _).1, (trimSpace_escapeString _).2,
    (trimSpace_escapeString _).1, (trimSpace_escapeString _).2, fun b hb => ?_, fun b hb => ?_⟩
  · have h₁ := (Strings.trimmedOf_trimSpace _).sublist.subset hb
    have hl := class_false_of_mem_single h₁ ldapChar_ascii
    have hc := class_false_of_mem_single ((replaceAllString_sublist _ _).subset h₁)
      controlChar_ascii
    refine ⟨hc, fun h => by simp [ldap_of_mem h] at hl, fun h => ?_⟩
    subst h
    simp [ldapChar] at hl
  · rcases mem_escapeString ((Strings.trimmedOf_trimSpace _).sublist.subset hb) with h | ⟨e, he, h⟩
    · have h₁ := (replaceAllString_sublist _ _).subset h
      have hl := class_false_of_mem_single h₁ ldapChar_ascii
      exact ⟨class_false_of_mem_single ((replaceAllString_sublist _ _).subset h₁)
        controlChar_ascii, fun h => by simp [ldap_of_mem h] at hl⟩
    · exact entity_bytes e he b h

/-! ## No script tag survives the escape -/

theorem scriptTagRegex_head :
    ∀ alt ∈ scriptTagRegex.alts, ∃ rest, alt = ⟨foldLit '<', .one⟩ :: rest :=
  fun _ halt => ⟨_, (List.mem_singleton.mp halt).trans rfl⟩

/-- `scriptTagRegex` matches no string without `<`: each of its matches starts with one. -/
theorem scriptTagRegex_no_match {Y : GoString} (hY : ∀ b ∈ Y, Html.special b = false) :
    scriptTagRegex.matchString Y = false := by
  refine Bool.eq_false_iff.mpr fun h => ?_
  obtain ⟨pc, hpc, hc⟩ := matchString_head scriptTagRegex_head h
  have hlt : pc.rune = 0x3C := by simpa [foldLit] using hc
  obtain ⟨b, hb, rfl⟩ := rune_lt_piece hpc (by omega)
  obtain rfl : b = 0x3C := UInt8.toNat.inj hlt
  exact absurd (hY _ hb) (by decide)

/-- **No script tag survives `CleanXSS` or `CleanAll`.** For every input, invalid UTF-8
included, `scriptTagRegex` matches neither output, whatever the passes before the escape
rebuilt: each of its matches starts with `<`, which the escape leaves out. -/
theorem cleanXSS_no_scriptTag (s : GoString) :
    scriptTagRegex.matchString (cleanXSS s) = false ∧
      scriptTagRegex.matchString (cleanAll s) = false := by
  by_cases hs : s = []
  · subst hs
    exact ⟨scriptTagRegex_no_match (by simp [cleanXSS]), scriptTagRegex_no_match (by simp [cleanAll])⟩
  simp only [cleanXSS, cleanAll, hs, if_false]
  exact ⟨scriptTagRegex_no_match (trimSpace_escapeString _).1,
    scriptTagRegex_no_match (trimSpace_escapeString _).1⟩

/-! ## What the cleaners without an escape do -/

/-- **`CleanInjection` and `CleanPathTraversal` only delete.** For every input, their output is
a subsequence of it. -/
theorem cleanInjection_sublist (s : GoString) :
    List.Sublist (cleanInjection s) s ∧ List.Sublist (cleanPathTraversal s) s := by
  by_cases hs : s = []
  · simp [cleanInjection, cleanPathTraversal, hs]
  simp only [cleanInjection, cleanPathTraversal, hs, if_false]
  exact ⟨(Strings.trimmedOf_trimSpace _).sublist.trans
      ((replaceAllString_sublist _ _).trans (replaceAllString_sublist _ _)),
    (Strings.trimmedOf_trimSpace _).sublist.trans (replaceAllString_sublist _ _)⟩

/-- **`CleanInjection` deletes the bytes of its two classes, then trims**: for every input,
invalid UTF-8 included, both classes being ASCII. -/
theorem cleanInjection_eq (s : GoString) :
    cleanInjection s =
      Strings.trimSpace (s.filter fun b => !controlChar b.toNat && !ldapChar b.toNat) := by
  by_cases hs : s = []
  · subst hs
    rfl
  simp only [cleanInjection, hs, if_false, controlCharsRegex, ldapCharsRegex,
    replaceAllString_single_ascii (fun _ => controlChar_ascii),
    replaceAllString_single_ascii (fun _ => ldapChar_ascii), List.filter_filter, Bool.and_comm]

/-- **`CleanInjection` is idempotent.** For every input, invalid UTF-8 included, it deletes
exactly the bytes of `controlCharsRegex` and `ldapCharsRegex` and trims, and cleaning its output
again changes nothing: no such byte is left, and `TrimSpace` keeps what it returned. -/
theorem cleanInjection_idempotent (s : GoString) :
    cleanInjection s =
        Strings.trimSpace (s.filter fun b => !controlChar b.toNat && !ldapChar b.toNat) ∧
      cleanInjection (cleanInjection s) = cleanInjection s := by
  refine ⟨cleanInjection_eq s, ?_⟩
  rw [cleanInjection_eq (cleanInjection s), cleanInjection_eq s]
  set t := Strings.trimSpace (s.filter fun b => !controlChar b.toNat && !ldapChar b.toNat)
  have hkeep : (t.filter fun b => !controlChar b.toNat && !ldapChar b.toNat) = t :=
    List.filter_eq_self.mpr fun b hb =>
      (List.mem_filter.mp ((Strings.trimmedOf_trimSpace _).sublist.subset hb)).2
  rw [hkeep]
  exact Strings.trimSpace_trimSpace _

/-- **The cleaners trim.** For every input, invalid UTF-8 included, what `CleanXSS`,
`CleanInjection`, `CleanPathTraversal` and `CleanAll` return neither starts nor ends with a
rune that `unicode.IsSpace` calls white space. -/
theorem cleaners_trimmed (s : GoString) :
    Strings.Trimmed (cleanXSS s) ∧ Strings.Trimmed (cleanInjection s) ∧
      Strings.Trimmed (cleanPathTraversal s) ∧ Strings.Trimmed (cleanAll s) := by
  by_cases hs : s = []
  · subst hs
    exact ⟨Strings.trimmed_nil, Strings.trimmed_nil, Strings.trimmed_nil, Strings.trimmed_nil⟩
  simp only [cleanXSS, cleanInjection, cleanPathTraversal, cleanAll, hs, if_false]
  exact ⟨Strings.trimmed_trimSpace _, Strings.trimmed_trimSpace _, Strings.trimmed_trimSpace _,
    Strings.trimmed_trimSpace _⟩

/-- **What `CleanInjection` leaves as it is**: exactly the trimmed text with no byte of
`controlCharsRegex` or `ldapCharsRegex`. -/
theorem cleanInjection_eq_self_iff (s : GoString) :
    cleanInjection s = s ↔
      Strings.Trimmed s ∧ ∀ b ∈ s, controlChar b.toNat = false ∧ ldapChar b.toNat = false := by
  rw [cleanInjection_eq]
  constructor
  · intro h
    refine ⟨h ▸ Strings.trimmed_trimSpace _, fun b hb => ?_⟩
    rw [← h] at hb
    simpa using (List.mem_filter.mp ((Strings.trimmedOf_trimSpace _).sublist.subset hb)).2
  · rintro ⟨ht, hb⟩
    rw [List.filter_eq_self.mpr fun b h => by simp [hb b h]]
    exact Strings.trimSpace_of_trimmed ht

example : cleanInjection (ascii " a(b) ") = ascii "ab" ∧ cleanInjection (ascii "ab") = ascii "ab" := by
  decide

/-- **`CleanXSS` and `CleanAll` grow their input at most fivefold.** For every input, invalid
UTF-8 included: the removal passes and the trim only delete, and `html.EscapeString` writes at
most five bytes for one. -/
theorem cleanXSS_length_le (s : GoString) :
    (cleanXSS s).length ≤ 5 * s.length ∧ (cleanAll s).length ≤ 5 * s.length := by
  by_cases hs : s = []
  · subst hs
    exact ⟨le_rfl, le_rfl⟩
  have hdel : ∀ (re : Regexp) (t : GoString),
      (re.replaceAllString t).length ≤ t.length := fun re t => (replaceAllString_sublist re t).length_le
  have hout : ∀ Y : GoString, Y.length ≤ s.length →
      (Strings.trimSpace (Html.escapeString Y)).length ≤ 5 * s.length := fun Y hY =>
    calc (Strings.trimSpace (Html.escapeString Y)).length
        ≤ (Html.escapeString Y).length := (Strings.trimmedOf_trimSpace _).sublist.length_le
      _ ≤ 5 * Y.length := Html.length_escapeString_le Y
      _ ≤ 5 * s.length := Nat.mul_le_mul_left 5 hY
  simp only [cleanXSS, cleanAll, hs, if_false]
  exact ⟨hout _ ((hdel _ _).trans ((hdel _ _).trans (hdel _ _))),
    hout _ ((hdel _ _).trans ((hdel _ _).trans ((hdel _ _).trans ((hdel _ _).trans
      ((hdel _ _).trans (hdel _ _))))))⟩

end Helpers

end Adele
