import Mathlib.Data.List.Basic

/-!
# Go strings and UTF-8 decoding

A Go `string` is a sequence of bytes, any bytes: `GoString`. What reads runes from it (the
`regexp` engine, `for range`, `strings.TrimFunc`) decodes with `unicode/utf8`, and that decoding
is modelled here as Go's `utf8` package writes it.

* `decodeRune` is `DecodeRuneInString`: the lead byte's `acceptRanges` entry, then the
  continuation bytes; an invalid or truncated sequence is `(RuneError, 1)`. Go checks the length
  before the second byte; a byte that is missing fails its range check here, which gives the same
  result.
* `decodeLastRune` is `DecodeLastRuneInString`, with its backward scan for a `RuneStart` byte
  over at most `UTFMax` bytes (`scanStart`).
* `decode` is the rune sequence a forward reader sees, each rune with the bytes it came from
  (`Piece`). It runs on a step budget, the string's length, so that it reduces by `decide`.

Results:
* `flatMap_decode` — the pieces put back together are the string.
* `ascii_piece` — an ASCII byte is always a piece of its own, decoded as itself: no invalid
  sequence can swallow it.
* `rune_lt_piece` — and the other way round: a rune below `0x80` is read from a byte of its own.
* `piece_two` — a rune from `0x80` to `0x7FF` is read from its two-byte encoding, never from a
  longer (overlong) form.
* `decode_append` — decoding splits before a byte that is not a continuation byte: no sequence
  runs across it.
* `decodeLastRune_shape` — the last rune is an ASCII byte, `RuneError` of width one, or a
  sequence of at least two bytes, all of them `0x80` or above.
-/

namespace Adele

/-- A Go `string`: its bytes. -/
abbrev GoString := List UInt8

namespace Utf8

/-- `utf8.RuneError`, U+FFFD. -/
def runeError : Nat := 0xFFFD

/-- The `first` / `acceptRanges` entry of a byte that starts a multi-byte sequence: the length
of the sequence and the range of its second byte. `none` for every other byte. -/
def acceptRange (b : Nat) : Option (Nat × Nat × Nat) :=
  if b < 0xC2 then none
  else if b ≤ 0xDF then some (2, 0x80, 0xBF)
  else if b = 0xE0 then some (3, 0xA0, 0xBF)
  else if b ≤ 0xEC then some (3, 0x80, 0xBF)
  else if b = 0xED then some (3, 0x80, 0x9F)
  else if b ≤ 0xEF then some (3, 0x80, 0xBF)
  else if b = 0xF0 then some (4, 0x90, 0xBF)
  else if b ≤ 0xF3 then some (4, 0x80, 0xBF)
  else if b = 0xF4 then some (4, 0x80, 0x8F)
  else none

/-- A continuation byte, `locb ≤ b ≤ hicb`. -/
def isCont (b : UInt8) : Prop := 0x80 ≤ b.toNat ∧ b.toNat ≤ 0xBF

instance (b : UInt8) : Decidable (isCont b) := inferInstanceAs (Decidable (_ ∧ _))

/-- `utf8.DecodeRuneInString`: the first rune of `s` and its width in bytes. -/
def decodeRune : GoString → Nat × Nat
  | [] => (runeError, 0)
  | b0 :: rest =>
    if b0.toNat < 0x80 then (b0.toNat, 1)
    else
      match acceptRange b0.toNat, rest with
      | some (2, lo, hi), b1 :: _ =>
        if lo ≤ b1.toNat ∧ b1.toNat ≤ hi then
          (b0.toNat % 0x20 * 0x40 + b1.toNat % 0x40, 2)
        else (runeError, 1)
      | some (3, lo, hi), b1 :: b2 :: _ =>
        if lo ≤ b1.toNat ∧ b1.toNat ≤ hi ∧ isCont b2 then
          (b0.toNat % 0x10 * 0x1000 + b1.toNat % 0x40 * 0x40 + b2.toNat % 0x40, 3)
        else (runeError, 1)
      | some (4, lo, hi), b1 :: b2 :: b3 :: _ =>
        if lo ≤ b1.toNat ∧ b1.toNat ≤ hi ∧ isCont b2 ∧ isCont b3 then
          (b0.toNat % 0x8 * 0x40000 + b1.toNat % 0x40 * 0x1000 + b2.toNat % 0x40 * 0x40 +
            b3.toNat % 0x40, 4)
        else (runeError, 1)
      | _, _ => (runeError, 1)

/-- `utf8.RuneStart`: not a continuation byte (`b & 0xC0 != 0x80`). -/
def runeStart (b : UInt8) : Bool := b.toNat / 0x40 != 2

/-- The backward scan of `DecodeLastRuneInString`, over the `k` indices below `lim + k`:
the highest one holding a `RuneStart` byte, else `lim - 1` (clamped at `0`, as the code does
with a negative `start`). -/
def scanStart (s : GoString) (lim : Nat) : Nat → Nat
  | 0 => lim - 1
  | k + 1 => if runeStart (s.getD (lim + k) 0) then lim + k else scanStart s lim k

/-- `utf8.DecodeLastRuneInString`: the last rune of `s` and its width in bytes. -/
def decodeLastRune (s : GoString) : Nat × Nat :=
  match s.getLast? with
  | none => (runeError, 0)
  | some last =>
    if last.toNat < 0x80 then (last.toNat, 1)
    else
      let lim := s.length - 4
      let start := scanStart s lim (s.length - 1 - lim)
      let r := decodeRune (s.drop start)
      if start + r.2 ≠ s.length then (runeError, 1) else r

/-- A rune read from a string, with the bytes it was decoded from. -/
structure Piece where
  rune : Nat
  bytes : GoString
  deriving DecidableEq, Repr

/-- The forward decoding loop, on a budget of `fuel` runes. -/
def decodeAux : Nat → GoString → List Piece
  | 0, _ => []
  | _, [] => []
  | fuel + 1, b :: rest =>
    let r := decodeRune (b :: rest)
    ⟨r.1, (b :: rest).take r.2⟩ :: decodeAux fuel ((b :: rest).drop r.2)

/-- The runes of `s` as `for i, r := range s` and the regexp engine read them. -/
def decode (s : GoString) : List Piece := decodeAux s.length s

/-! ## The shape of a decoded rune -/

theorem acceptRange_spec {b n lo hi : Nat} (h : acceptRange b = some (n, lo, hi)) :
    0x80 ≤ lo ∧ hi ≤ 0xBF ∧ 0xC2 ≤ b ∧ (n = 2 → b ≤ 0xDF) ∧ (n = 3 → 0xE0 ≤ b ∧ b ≤ 0xEF) ∧
      (n = 4 → 0xF0 ≤ b ∧ b ≤ 0xF4) ∧ (b = 0xE0 → lo = 0xA0) ∧ (b = 0xF0 → lo = 0x90) := by
  simp [acceptRange, ite_eq_iff] at h
  omega

/-- A decoded rune is an ASCII byte, `RuneError` of width one, or a rune of `0x80` or above read
from a sequence of at least two bytes of the string, all `0x80` or above. -/
theorem decodeRune_shape (b0 : UInt8) (rest : GoString) :
    (b0.toNat < 0x80 ∧ decodeRune (b0 :: rest) = (b0.toNat, 1)) ∨
    (0x80 ≤ b0.toNat ∧ decodeRune (b0 :: rest) = (runeError, 1)) ∨
    (0x80 ≤ (decodeRune (b0 :: rest)).1 ∧ 2 ≤ (decodeRune (b0 :: rest)).2 ∧
      (decodeRune (b0 :: rest)).2 ≤ rest.length + 1 ∧
      ∀ b ∈ (b0 :: rest).take (decodeRune (b0 :: rest)).2, 0x80 ≤ b.toNat) := by
  unfold decodeRune
  by_cases h0 : b0.toNat < 0x80
  · exact .inl ⟨h0, by simp [h0]⟩
  simp only [h0, if_false]
  split
  all_goals try exact .inr (.inl ⟨by omega, rfl⟩)
  all_goals
    rename_i h
    have hr := acceptRange_spec h
    simp only [false_implies, true_implies, and_true, true_and] at hr
    split_ifs with hc
    · refine .inr (.inr ⟨by omega, by simp, by simp, ?_⟩)
      simp only [isCont] at hc
      simp only [List.take_succ_cons, List.take_zero, List.forall_mem_cons, List.not_mem_nil,
        false_implies, implies_true, and_true]
      omega
    · exact .inr (.inl ⟨by omega, rfl⟩)

theorem decodeRune_width (b0 : UInt8) (rest : GoString) :
    1 ≤ (decodeRune (b0 :: rest)).2 ∧ (decodeRune (b0 :: rest)).2 ≤ rest.length + 1 := by
  rcases decodeRune_shape b0 rest with ⟨-, h⟩ | ⟨-, h⟩ | ⟨-, h1, h2, -⟩
  · simp [h]
  · simp [h]
  · omega

/-- A byte below `0x80` in the bytes of a decoded rune is the whole rune. -/
theorem decodeRune_ascii {b0 b : UInt8} {rest : GoString}
    (hb : b ∈ (b0 :: rest).take (decodeRune (b0 :: rest)).2) (hlt : b.toNat < 0x80) :
    (b0 :: rest).take (decodeRune (b0 :: rest)).2 = [b] ∧ (decodeRune (b0 :: rest)).1 = b.toNat := by
  rcases decodeRune_shape b0 rest with ⟨h0, h⟩ | ⟨h0, h⟩ | ⟨-, -, -, h⟩
  · simp only [h, List.take_succ_cons, List.take_zero, List.mem_singleton] at hb ⊢
    subst hb
    exact ⟨rfl, rfl⟩
  · simp only [h, List.take_succ_cons, List.take_zero, List.mem_singleton] at hb
    subst hb
    omega
  · exact absurd (h b hb) (by omega)

/-- A rune below `0x80` is read from one ASCII byte. -/
theorem decodeRune_of_lt {b0 : UInt8} {rest : GoString} (h : (decodeRune (b0 :: rest)).1 < 0x80) :
    decodeRune (b0 :: rest) = (b0.toNat, 1) := by
  rcases decodeRune_shape b0 rest with ⟨-, h'⟩ | ⟨-, h'⟩ | ⟨h', -⟩
  · exact h'
  · simp [h', runeError] at h
  · omega

/-- **A rune below `0x800` is read from its two-byte encoding**: the decoder accepts no longer
form of it (no overlong encoding). -/
theorem decodeRune_two {b0 : UInt8} {rest : GoString} (h1 : 0x80 ≤ (decodeRune (b0 :: rest)).1)
    (h2 : (decodeRune (b0 :: rest)).1 < 0x800) :
    (b0 :: rest).take (decodeRune (b0 :: rest)).2 =
      [UInt8.ofNat (0xC0 + (decodeRune (b0 :: rest)).1 / 0x40),
        UInt8.ofNat (0x80 + (decodeRune (b0 :: rest)).1 % 0x40)] := by
  revert h1 h2
  unfold decodeRune
  by_cases h0 : b0.toNat < 0x80
  · simp only [h0, if_true]; omega
  simp only [h0, if_false]
  split
  all_goals try (simp [runeError]; done)
  all_goals
    rename_i hA
    have := acceptRange_spec hA
    simp only [false_implies, true_implies, and_true, true_and] at this
    split_ifs with hc
    all_goals simp only [runeError, isCont] at hc ⊢
    all_goals intro h1 h2; try omega
  simp only [List.take_succ_cons, List.take_zero, List.cons.injEq, and_true]
  constructor <;> apply UInt8.toNat.inj <;> rw [UInt8.toNat_ofNat_of_lt] <;>
    (try simp only [UInt8.size]) <;> omega

/-! ## Decoding a whole string -/

theorem flatMap_decodeAux : ∀ (fuel : Nat) (s : GoString), s.length ≤ fuel →
    (decodeAux fuel s).flatMap Piece.bytes = s
  | 0, [], _ => rfl
  | _ + 1, [], _ => rfl
  | fuel + 1, b :: rest, h => by
    have hw := decodeRune_width b rest
    simp only [decodeAux, List.flatMap_cons]
    rw [flatMap_decodeAux fuel _ (by simp only [List.length_drop, List.length_cons] at h ⊢; omega),
      List.take_append_drop]

/-- **Decoding loses no byte**: the pieces put back together are the string. -/
theorem flatMap_decode (s : GoString) : (decode s).flatMap Piece.bytes = s :=
  flatMap_decodeAux _ s le_rfl

theorem ascii_piece_aux : ∀ (fuel : Nat) (s : GoString) (pc : Piece), pc ∈ decodeAux fuel s →
    ∀ b ∈ pc.bytes, b.toNat < 0x80 → pc = ⟨b.toNat, [b]⟩
  | 0, _, _, h => by simp [decodeAux] at h
  | _ + 1, [], _, h => by simp [decodeAux] at h
  | fuel + 1, b0 :: rest, pc, h => by
    simp only [decodeAux, List.mem_cons] at h
    rcases h with rfl | h
    · intro b hb hlt
      obtain ⟨h1, h2⟩ := decodeRune_ascii hb hlt
      simp only [h1, h2]
    · exact ascii_piece_aux fuel _ pc h

/-- **An ASCII byte is a rune of its own**, whatever bytes surround it. -/
theorem ascii_piece {s : GoString} {pc : Piece} (h : pc ∈ decode s) {b : UInt8}
    (hb : b ∈ pc.bytes) (hlt : b.toNat < 0x80) : pc = ⟨b.toNat, [b]⟩ :=
  ascii_piece_aux _ s pc h b hb hlt

theorem rune_lt_piece_aux : ∀ (fuel : Nat) (s : GoString) (pc : Piece), pc ∈ decodeAux fuel s →
    pc.rune < 0x80 → ∃ b ∈ s, pc = ⟨b.toNat, [b]⟩
  | 0, _, _, h => by simp [decodeAux] at h
  | _ + 1, [], _, h => by simp [decodeAux] at h
  | fuel + 1, b0 :: rest, pc, h => by
    simp only [decodeAux, List.mem_cons] at h
    rcases h with rfl | h <;> intro hlt
    · exact ⟨b0, List.mem_cons_self _ _, by simp [decodeRune_of_lt hlt]⟩
    · obtain ⟨b, hb, rfl⟩ := rune_lt_piece_aux fuel _ pc h hlt
      exact ⟨b, List.mem_of_mem_drop hb, rfl⟩

/-- **An ASCII rune is read from a byte of its own**: a rune below `0x80` is never part of a
longer sequence, valid or not. -/
theorem rune_lt_piece {s : GoString} {pc : Piece} (h : pc ∈ decode s) (hlt : pc.rune < 0x80) :
    ∃ b ∈ s, pc = ⟨b.toNat, [b]⟩ :=
  rune_lt_piece_aux _ s pc h hlt

theorem mem_decodeAux : ∀ (fuel : Nat) (s : GoString) (pc : Piece), pc ∈ decodeAux fuel s →
    ∃ b rest, pc = ⟨(decodeRune (b :: rest)).1, (b :: rest).take (decodeRune (b :: rest)).2⟩
  | 0, _, _, h => by simp [decodeAux] at h
  | _ + 1, [], _, h => by simp [decodeAux] at h
  | fuel + 1, b0 :: rest, pc, h => by
    simp only [decodeAux, List.mem_cons] at h
    exact h.elim (fun h => ⟨b0, rest, h⟩) (mem_decodeAux fuel _ pc)

/-- A piece of `decode s` whose rune is below `0x800` is the two-byte encoding of that rune. -/
theorem piece_two {s : GoString} {pc : Piece} (h : pc ∈ decode s) (h1 : 0x80 ≤ pc.rune)
    (h2 : pc.rune < 0x800) :
    pc.bytes = [UInt8.ofNat (0xC0 + pc.rune / 0x40), UInt8.ofNat (0x80 + pc.rune % 0x40)] := by
  obtain ⟨b, rest, rfl⟩ := mem_decodeAux _ s pc h
  exact decodeRune_two h1 h2

/-! ## Where a sequence cannot continue -/

/-- **A byte that is not a continuation byte ends every sequence**: what follows it does not
change the rune decoded before it. -/
theorem decodeRune_append {b a : UInt8} {x y : GoString} (ha : ¬isCont a) :
    decodeRune (b :: x ++ a :: y) = decodeRune (b :: x) := by
  simp only [isCont, not_and, not_le] at ha
  rw [List.cons_append]
  by_cases h0 : b.toNat < 0x80
  · simp [decodeRune, h0]
  simp only [decodeRune, h0, if_false]
  rcases h : acceptRange b.toNat with _ | ⟨n, lo, hi⟩
  · rfl
  obtain ⟨hlo, hhi, -, -, -, -, -, -⟩ := acceptRange_spec h
  have hn : n = 2 ∨ n = 3 ∨ n = 4 := by
    simp [acceptRange, ite_eq_iff] at h
    omega
  rcases hn with rfl | rfl | rfl <;>
  rcases x with _ | ⟨x1, _ | ⟨x2, _ | ⟨x3, x'⟩⟩⟩ <;>
    simp only [List.cons_append, List.nil_append, isCont]
  all_goals
    rcases y with _ | ⟨y1, _ | ⟨y2, y2s⟩⟩ <;> (try simp only []) <;> split_ifs <;>
      first | rfl | (exfalso; omega)

/-- A rune reads only the continuation bytes that follow its first byte. -/
theorem decodeRune_takeWhile (b : UInt8) (x : GoString) :
    decodeRune (b :: x) = decodeRune (b :: x.takeWhile fun a => decide (isCont a)) := by
  conv_lhs => rw [← List.takeWhile_append_dropWhile (fun a => decide (isCont a)) x]
  cases h : x.dropWhile (fun a => decide (isCont a)) with
  | nil => rw [List.append_nil]
  | cons a y =>
    have ha := List.head_dropWhile_not (fun a => decide (isCont a)) x (by simp [h])
    simp only [h, List.head_cons, decide_eq_false_iff_not] at ha
    exact decodeRune_append ha

/-- Cutting a string before a byte that is not a continuation byte keeps its first rune. -/
theorem decodeRune_take_of_head {l : GoString} {e : Nat} (he : 0 < e)
    (h : ∀ a ∈ (l.drop e).head?, ¬isCont a) : decodeRune (l.take e) = decodeRune l := by
  cases hd : l.drop e with
  | nil => rw [List.take_of_length_le (List.drop_eq_nil_iff.mp hd)]
  | cons a y =>
    have hne : l.take e ≠ [] := by
      simp only [ne_eq, List.take_eq_nil_iff, not_or]
      exact ⟨by omega, by rintro rfl; simp at hd⟩
    obtain ⟨b, x, hbx⟩ := List.exists_cons_of_ne_nil hne
    conv_rhs => rw [← List.take_append_drop e l, hbx, hd]
    rw [hbx]
    exact (decodeRune_append (h a (by simp [hd]))).symm

/-- **Cutting a string short keeps its first rune or makes it `RuneError`**: a truncated
sequence never decodes to another rune. -/
theorem decodeRune_take (b : UInt8) (rest : GoString) (k : Nat) :
    decodeRune (b :: rest.take k) = decodeRune (b :: rest) ∨
      decodeRune (b :: rest.take k) = (runeError, 1) := by
  unfold decodeRune
  by_cases h0 : b.toNat < 0x80
  · simp [h0]
  simp only [h0, if_false]
  rcases hA : acceptRange b.toNat with _ | ⟨n, lo, hi⟩
  · simp
  have hn : n = 2 ∨ n = 3 ∨ n = 4 := by
    simp [acceptRange, ite_eq_iff] at hA
    omega
  rcases hn with rfl | rfl | rfl <;>
  rcases rest with _ | ⟨x1, _ | ⟨x2, _ | ⟨x3, t⟩⟩⟩ <;> rcases k with _ | _ | _ | k <;>
    simp only [List.take_succ_cons, List.take_zero, List.take_nil] <;> (try split_ifs) <;> simp

theorem decodeAux_nil (fuel : Nat) : decodeAux fuel [] = [] := by
  cases fuel <;> rfl

theorem decodeAux_fuel : ∀ (f₁ f₂ : Nat) (s : GoString), s.length ≤ f₁ → s.length ≤ f₂ →
    decodeAux f₁ s = decodeAux f₂ s
  | f₁, f₂, [], _, _ => by rw [decodeAux_nil, decodeAux_nil]
  | 0, _, _ :: _, h, _ => absurd h (by simp)
  | _, 0, _ :: _, _, h => absurd h (by simp)
  | f₁ + 1, f₂ + 1, b :: rest, h₁, h₂ => by
    have hw := decodeRune_width b rest
    simp only [decodeAux]
    rw [decodeAux_fuel f₁ f₂ _ (by simp at h₁ ⊢; omega) (by simp at h₂ ⊢; omega)]

/-- One step of the decoding loop. -/
theorem decode_cons (b : UInt8) (s : GoString) :
    decode (b :: s) = ⟨(decodeRune (b :: s)).1, (b :: s).take (decodeRune (b :: s)).2⟩ ::
      decode ((b :: s).drop (decodeRune (b :: s)).2) := by
  have hw := decodeRune_width b s
  rw [decode, List.length_cons, decodeAux, decode,
    decodeAux_fuel _ _ _ (by simp; omega) le_rfl]

/-- An ASCII byte decodes to itself, whatever follows it. -/
theorem decode_ascii_cons {b : UInt8} (hb : b.toNat < 0x80) (s : GoString) :
    decode (b :: s) = ⟨b.toNat, [b]⟩ :: decode s := by
  simp only [decode_cons, decodeRune, hb, if_true, List.take_succ_cons, List.take_zero,
    List.drop_succ_cons, List.drop_zero]

/-- **Decoding splits before a byte that is not a continuation byte**: no sequence runs across
it, whatever comes before. -/
theorem decode_append : ∀ (u : GoString) {v : GoString}, (∀ a ∈ v.head?, ¬isCont a) →
    decode (u ++ v) = decode u ++ decode v
  | [], _, _ => rfl
  | b :: x, v, hv => by
    have hd : decodeRune (b :: (x ++ v)) = decodeRune (b :: x) := by
      rcases v with _ | ⟨a, y⟩
      · rw [List.append_nil]
      · rw [← List.cons_append]
        exact decodeRune_append (hv a rfl)
    have hw := decodeRune_width b x
    rw [List.cons_append, decode_cons, decode_cons, hd, ← List.cons_append,
      List.take_append_of_le_length (by simp; omega),
      List.drop_append_of_le_length (by simp; omega), decode_append _ hv, List.cons_append]
termination_by u => u.length
decreasing_by simp; omega

theorem bytes_ne_nil_aux : ∀ (fuel : Nat) (s : GoString) (pc : Piece), pc ∈ decodeAux fuel s →
    pc.bytes ≠ []
  | 0, _, _, h => by simp [decodeAux] at h
  | _ + 1, [], _, h => by simp [decodeAux] at h
  | fuel + 1, b :: rest, pc, h => by
    simp only [decodeAux, List.mem_cons] at h
    rcases h with rfl | h
    · have := (decodeRune_width b rest).1
      simp only [ne_eq, List.take_eq_nil_iff, List.cons_ne_nil, or_false]
      omega
    · exact bytes_ne_nil_aux fuel _ pc h

/-- Every piece holds at least one byte. -/
theorem bytes_ne_nil {s : GoString} {pc : Piece} (h : pc ∈ decode s) : pc.bytes ≠ [] :=
  bytes_ne_nil_aux _ s pc h

/-- Decoding the bytes of a list of pieces that decodes to itself, after its first piece,
gives the rest back. -/
theorem decode_flatMap_tail {pc : Piece} {Q : List Piece}
    (h : decode ((pc :: Q).flatMap Piece.bytes) = pc :: Q) :
    decode (Q.flatMap Piece.bytes) = Q := by
  obtain ⟨b, bs, hb⟩ := List.exists_cons_of_ne_nil (bytes_ne_nil (h ▸ List.mem_cons_self pc Q))
  rw [List.flatMap_cons, hb, List.cons_append, decode_cons] at h
  obtain ⟨hhead, htail⟩ := List.cons.inj h
  have htake : (b :: (bs ++ Q.flatMap Piece.bytes)).take
      (decodeRune (b :: (bs ++ Q.flatMap Piece.bytes))).2 = b :: bs := by
    rw [← hb, ← hhead]
  have hsplit := List.take_append_drop (decodeRune (b :: (bs ++ Q.flatMap Piece.bytes))).2
    (b :: (bs ++ Q.flatMap Piece.bytes))
  rw [htake] at hsplit
  rwa [List.append_cancel_left (hsplit.trans (List.cons_append b bs _).symm)] at htail

/-! ## Decoding the last rune -/

theorem scanStart_le (s : GoString) (lim : Nat) : ∀ k, scanStart s lim k ≤ lim + k - 1
  | 0 => le_rfl
  | k + 1 => by
    unfold scanStart
    split
    · omega
    · have := scanStart_le s lim k
      omega

/-- What `DecodeLastRuneInString` returns: the last byte when it is ASCII, else `RuneError` of
width one, or the rune read forward from a position where it ends exactly at the end. -/
theorem decodeLastRune_cases {s : GoString} (hs : s ≠ []) :
    ∃ last, s.getLast? = some last ∧
      ((last.toNat < 0x80 ∧ decodeLastRune s = (last.toNat, 1)) ∨
        (0x80 ≤ last.toNat ∧ decodeLastRune s = (runeError, 1)) ∨
        (0x80 ≤ last.toNat ∧ ∃ start, start < s.length ∧
          decodeLastRune s = decodeRune (s.drop start) ∧
            start + (decodeRune (s.drop start)).2 = s.length)) := by
  obtain ⟨last, hl⟩ : ∃ last, s.getLast? = some last :=
    Option.isSome_iff_exists.mp (by simpa [List.getLast?_isSome] using hs)
  refine ⟨last, hl, ?_⟩
  unfold decodeLastRune
  rw [hl]
  by_cases h0 : last.toNat < 0x80
  · exact .inl ⟨h0, by simp [h0]⟩
  simp only [h0, if_false]
  have hpos : 0 < s.length := List.length_pos.mpr hs
  have hstart := scanStart_le s (s.length - 4) (s.length - 1 - (s.length - 4))
  generalize scanStart s (s.length - 4) (s.length - 1 - (s.length - 4)) = start at hstart ⊢
  split_ifs with hne
  · exact .inr (.inl ⟨by omega, rfl⟩)
  · exact .inr (.inr ⟨by omega, start, by omega, rfl, by omega⟩)

/-- The last rune is an ASCII byte, `RuneError` of width one, or a sequence of at least two
bytes, all `0x80` or above. -/
theorem decodeLastRune_shape {s : GoString} (hs : s ≠ []) :
    (∃ b, s.getLast? = some b ∧ b.toNat < 0x80 ∧ decodeLastRune s = (b.toNat, 1)) ∨
    decodeLastRune s = (runeError, 1) ∨
    (2 ≤ (decodeLastRune s).2 ∧ (decodeLastRune s).2 ≤ s.length ∧
      ∀ b ∈ s.drop (s.length - (decodeLastRune s).2), 0x80 ≤ b.toNat) := by
  obtain ⟨last, hl, ⟨h0, h⟩ | ⟨-, h⟩ | ⟨h0, start, hlt, h, hend⟩⟩ := decodeLastRune_cases hs
  · exact .inl ⟨last, hl, h0, h⟩
  · exact .inr (.inl h)
  obtain ⟨b0, rest, hd⟩ : ∃ b0 rest, s.drop start = b0 :: rest :=
    List.exists_cons_of_ne_nil (by simp; omega)
  have hlen : rest.length + 1 = s.length - start := by
    simpa using (congrArg List.length hd).symm
  rw [h, hd]
  rw [hd] at hend
  rcases decodeRune_shape b0 rest with ⟨hb0, h'⟩ | ⟨-, h'⟩ | ⟨-, h1, h2, h3⟩
  · rw [h'] at hend
    have hrest : rest = [] := List.length_eq_zero.mp (by simp at hend; omega)
    have := congrArg List.getLast? hd
    rw [List.getLast?_drop, if_neg (by omega), hl, hrest, List.getLast?_singleton,
      Option.some.injEq] at this
    subst this
    omega
  · exact .inr (.inl h')
  · refine .inr (.inr ⟨h1, by omega, ?_⟩)
    have : s.length - (decodeRune (b0 :: rest)).2 = start := by omega
    rw [this, hd]
    rwa [List.take_of_length_le (by simp; omega)] at h3

theorem not_isCont_of_ne_runeError {b0 : UInt8} {rest : GoString}
    (h : (decodeRune (b0 :: rest)).1 ≠ runeError) : ¬isCont b0 := by
  intro hc
  simp only [isCont] at hc
  rcases hA : acceptRange b0.toNat with _ | ⟨n, lo, hi⟩
  · simp [decodeRune, show ¬b0.toNat < 0x80 by omega, hA] at h
  · have := (acceptRange_spec hA).2.2.1
    omega

theorem drop_length_sub_one {s : GoString} {last : UInt8} (hl : s.getLast? = some last) :
    s.drop (s.length - 1) = [last] := by
  rw [List.getLast?_eq_some_iff] at hl
  obtain ⟨ys, rfl⟩ := hl
  simp

/-- **The last rune, read forward from where it starts**, has the width read backward; unless it
is `RuneError`, it is the same rune, and it starts with a byte that is not a continuation
byte. -/
theorem decodeLastRune_forward {s : GoString} (hs : s ≠ []) :
    (decodeRune (s.drop (s.length - (decodeLastRune s).2))).2 = (decodeLastRune s).2 ∧
      ((decodeLastRune s).1 ≠ runeError →
        decodeRune (s.drop (s.length - (decodeLastRune s).2)) = decodeLastRune s ∧
          ∀ a ∈ (s.drop (s.length - (decodeLastRune s).2)).head?, ¬isCont a) := by
  obtain ⟨last, hl, ⟨h0, h⟩ | ⟨-, h⟩ | ⟨-, start, hlt, h, hend⟩⟩ := decodeLastRune_cases hs
  · rw [h, drop_length_sub_one hl]
    simp [decodeRune, h0, isCont]
  · have := decodeRune_width last []
    rw [h, drop_length_sub_one hl]
    exact ⟨by simp only [List.length_nil] at this; omega, fun h => absurd rfl h⟩
  · have : s.length - (decodeRune (s.drop start)).2 = start := by omega
    rw [h, this]
    obtain ⟨b0, rest, hd⟩ : ∃ b0 rest, s.drop start = b0 :: rest :=
      List.exists_cons_of_ne_nil (by simp; omega)
    rw [hd]
    exact ⟨rfl, fun h => ⟨rfl, by simpa using not_isCont_of_ne_runeError h⟩⟩

end Utf8

end Adele
