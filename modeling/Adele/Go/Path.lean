import Adele.Go.Text

/-!
# `path.Clean` and `path.Join`

Model of Go's `path.Clean` and `path.Join`, and of `filepath.Clean` on a Unix build, as
`DownloadFile` (`src/unnamed/part_000:180-188`) calls them.

* `cleanLoop` is the loop of `Clean` (`for r < n`) over the bytes `path[r:]` not read yet. The
  buffer `out` is kept as the bytes written, last first, so that an append is a cons and the
  backtrack of the `..` case (`backtrack`) reads it from its end. Every iteration reads at least
  one byte, so `len(path)` iterations (the fuel) run the loop to its end.
* On Unix, `filepath.Clean` strips an empty volume name and runs the same loop with the
  separator `/`; `filepathClean` is `clean`.
* `cleanSpec` is what the doc comment of `Clean` says, over the elements of the path: the state
  `Kept` holds the leading `..` elements and the names after them, and `Kept.push` reads one
  element.

Results:
* `clean_eq_cleanSpec` — the byte loop, with its `dotdot` mark and its backtrack, computes the
  rules of the doc comment. The loop is simulated element by element (`Kept.cleanLoop_push`): the
  state `Kept.Valid` that encodes `k` is `out = k.render` with `dotdot = k.floor`.
* `clean_clean` — `Clean` is idempotent.
* `cleanSpec_append_slash` — a name without `..` elements, after a clean rooted path `d`, cleans
  to `d` or to a path in it.
-/

namespace Adele

namespace GoPath

/-- The string `.`, also the element `.`. -/
def dot : GoString := [0x2E]

/-- The element `..`. -/
def dotDot : GoString := [0x2E, 0x2E]

/-- The backtrack of the `..` case (`out.w--`, then
`for out.w > dotdot && out.index(out.w) != '/' { out.w-- }`), on the bytes written, last first:
drop one, and go on dropping while more than `dotdot` are kept and the byte just dropped is not a
slash. -/
def backtrack (dotdot : Nat) : GoString → GoString
  | [] => []
  | c :: kept => if dotdot < kept.length ∧ c ≠ 0x2F then backtrack dotdot kept else kept

/-- The loop of `Clean` over the bytes not read yet, with `rout` the bytes written to `out`, last
first, and `dotdot` the length of the prefix of `out` a `..` cannot remove. `0x2F` is `/` and
`0x2E` is `.`. -/
def cleanLoop (rooted : Bool) : Nat → GoString → GoString → Nat → GoString
  | 0, _, rout, _ => rout
  | _ + 1, [], rout, _ => rout
  | fuel + 1, c :: rest, rout, dotdot =>
    if c = 0x2F then
      -- empty path element
      cleanLoop rooted fuel rest rout dotdot
    else if c = 0x2E ∧ (rest = [] ∨ rest.head? = some 0x2F) then
      -- `.` element
      cleanLoop rooted fuel rest rout dotdot
    else if c = 0x2E ∧ rest.head? = some 0x2E ∧ (rest.tail = [] ∨ rest.tail.head? = some 0x2F) then
      -- `..` element: remove to last `/`
      if dotdot < rout.length then cleanLoop rooted fuel rest.tail (backtrack dotdot rout) dotdot
      else if !rooted then
        let rout := 0x2E :: 0x2E :: if 0 < rout.length then 0x2F :: rout else rout
        cleanLoop rooted fuel rest.tail rout rout.length
      else cleanLoop rooted fuel rest.tail rout dotdot
    else
      -- real path element: add slash if needed, then copy the element
      let rout := if rooted && rout.length != 1 || !rooted && rout.length != 0 then 0x2F :: rout
        else rout
      cleanLoop rooted fuel ((c :: rest).dropWhile (· != 0x2F))
        (((c :: rest).takeWhile (· != 0x2F)).reverse ++ rout) dotdot

/-- `path.Clean`. -/
def clean (path : GoString) : GoString :=
  if path = [] then dot
  else
    let rooted : Bool := decide (path.head? = some 0x2F)
    let rout := if rooted then cleanLoop rooted path.length path.tail [0x2F] 1
      else cleanLoop rooted path.length path [] 0
    if rout = [] then dot else rout.reverse

/-- `path.Join`: the non-empty elements, and every element after the first non-empty one, joined
with slashes, then cleaned; `""` when all are empty. -/
def join (elem : List GoString) : GoString :=
  if elem.foldl (fun size e => size + e.length) 0 = 0 then []
  else
    clean (elem.foldl (fun buf e =>
      if 0 < buf.length ∨ e ≠ [] then (if 0 < buf.length then buf ++ [0x2F] else buf) ++ e
      else buf) [])

/-- `filepath.Clean` on a Unix build: no volume name, separator `/`. -/
def filepathClean (path : GoString) : GoString := clean path

/-! ## The rules of the documentation

The doc comment of `Clean`: replace multiple slashes by one, eliminate each `.` element,
eliminate each inner `..` element with the non-`..` element before it, and eliminate the `..`
elements that begin a rooted path; return `.` when nothing is left. `cleanSpec` states these
rules over the elements of the path. -/

/-- The elements of a path: the byte strings between its slashes. -/
def elements (path : GoString) : List GoString := path.splitOn 0x2F

/-- What is kept of the elements read so far: `ups` leading `..` elements, then `names`. -/
structure Kept where
  ups : Nat
  names : List GoString
  deriving DecidableEq, Repr

namespace Kept

/-- The elements kept, in order. -/
def elems (k : Kept) : List GoString := List.replicate k.ups dotDot ++ k.names

/-- One more element, by the rules of the doc comment. -/
def push (rooted : Bool) (k : Kept) (e : GoString) : Kept :=
  if e = [] ∨ e = dot then k
  else if e = dotDot then
    if k.names ≠ [] then ⟨k.ups, k.names.dropLast⟩
    else if rooted then k
    else ⟨k.ups + 1, []⟩
  else ⟨k.ups, k.names ++ [e]⟩

/-- The path of the elements kept, after a slash when it is rooted. -/
def render (rooted : Bool) (k : Kept) : GoString :=
  (if rooted then [0x2F] else []) ++ [0x2F].intercalate k.elems

end Kept

/-- `Clean` as its doc comment states it. -/
def cleanSpec (path : GoString) : GoString :=
  let rooted : Bool := decide (path.head? = some 0x2F)
  let out := ((elements path).foldl (Kept.push rooted) ⟨0, []⟩).render rooted
  if out = [] then dot else out

/-! ## Lists joined by one separator -/

section Intercalate

variable {α : Type} (s : α)

theorem intercalate_cons_cons (a b : List α) (t : List (List α)) :
    [s].intercalate (a :: b :: t) = a ++ s :: [s].intercalate (b :: t) := by
  simp [List.intercalate]

theorem intercalate_append : ∀ {l₁ : List (List α)}, l₁ ≠ [] → ∀ {l₂ : List (List α)}, l₂ ≠ [] →
    [s].intercalate (l₁ ++ l₂) = [s].intercalate l₁ ++ s :: [s].intercalate l₂
  | [a], _, b :: t, _ => by
    rw [List.singleton_append, intercalate_cons_cons]
    simp [List.intercalate]
  | a :: b :: t, _, l₂, h₂ => by
    rw [List.cons_append, List.cons_append, intercalate_cons_cons, ← List.cons_append,
      intercalate_append (List.cons_ne_nil b t) h₂, intercalate_cons_cons]
    simp

theorem intercalate_concat {l : List (List α)} (hl : l ≠ []) (x : List α) :
    [s].intercalate (l ++ [x]) = [s].intercalate l ++ s :: x := by
  rw [intercalate_append s hl (List.cons_ne_nil x [])]
  simp [List.intercalate]

theorem intercalate_eq_nil_iff {l : List (List α)} (hl : ∀ x ∈ l, x ≠ []) :
    [s].intercalate l = [] ↔ l = [] := by
  rcases l with _ | ⟨a, _ | ⟨b, t⟩⟩
  · simp [List.intercalate]
  · simpa [List.intercalate] using hl a (List.mem_cons_self a [])
  · simp [intercalate_cons_cons, hl a (List.mem_cons_self _ _)]

end Intercalate

/-! ## The loop follows the rules -/

/-- A name `Clean` keeps: not empty, without a slash, and neither `.` nor `..`. -/
def IsName (x : GoString) : Prop := x ≠ [] ∧ 0x2F ∉ x ∧ x ≠ dot ∧ x ≠ dotDot

/-- What the loop of `Clean` can have kept: names after the `..`, and no `..` on a rooted
path. -/
structure Kept.Valid (rooted : Bool) (k : Kept) : Prop where
  names : ∀ x ∈ k.names, IsName x
  ups : rooted = true → k.ups = 0

/-- The length of the part of the output a `..` cannot remove: the root, or the leading `..`
elements. -/
def Kept.floor (rooted : Bool) (k : Kept) : Nat := (Kept.render rooted ⟨k.ups, []⟩).length

namespace Kept

variable {r : Bool} {k : Kept}

theorem elems_ne_nil_of_mem (hk : k.Valid r) : ∀ x ∈ k.elems, x ≠ [] := by
  intro x hx
  rcases List.mem_append.mp hx with h | h
  · rw [List.eq_of_mem_replicate h]
    decide
  · exact (hk.names x h).1

theorem render_concat (u : Nat) (ns : List GoString) (x : GoString) :
    render r ⟨u, ns ++ [x]⟩ =
      render r ⟨u, ns⟩ ++ (if (⟨u, ns⟩ : Kept).elems = [] then [] else [0x2F]) ++ x := by
  have h : (⟨u, ns ++ [x]⟩ : Kept).elems = (⟨u, ns⟩ : Kept).elems ++ [x] := by
    simp [elems]
  by_cases he : (⟨u, ns⟩ : Kept).elems = []
  · simp [render, h, he, List.intercalate]
  · simp [render, h, he, intercalate_concat _ he]

/-- One more leading `..`, as the loop writes it: `..`, after a slash unless nothing was
written. -/
theorem reverse_render_up (u : Nat) :
    (render false ⟨u + 1, []⟩).reverse =
      0x2E :: 0x2E :: if 0 < (render false ⟨u, []⟩).length then
        0x2F :: (render false ⟨u, []⟩).reverse else (render false ⟨u, []⟩).reverse := by
  have h : (⟨u + 1, []⟩ : Kept).elems = (⟨u, []⟩ : Kept).elems ++ [dotDot] := by
    simp [elems, List.replicate_succ']
  have hnil : render false ⟨u, []⟩ = [] ↔ (⟨u, []⟩ : Kept).elems = [] := by
    simp [render, intercalate_eq_nil_iff _
      (elems_ne_nil_of_mem (⟨by simp, by simp⟩ : (⟨u, []⟩ : Kept).Valid false))]
  by_cases he : (⟨u, []⟩ : Kept).elems = []
  · simp [render, h, he, List.intercalate, dotDot]
  · rw [if_pos (List.length_pos.mpr (mt hnil.mp he))]
    simp [render, h, intercalate_concat _ he, dotDot]

theorem isPrefix_render (u : Nat) (ns : List GoString) :
    List.IsPrefix (render r ⟨u, []⟩) (render r ⟨u, ns⟩) := by
  induction ns using List.reverseRecOn with
  | nil => exact List.prefix_refl _
  | append_singleton ns x ih =>
    rw [render_concat, List.append_assoc]
    exact ih.trans (List.prefix_append _ _)

theorem floor_lt_length_iff (hk : k.Valid r) : k.floor r < (k.render r).length ↔ k.names ≠ [] := by
  obtain ⟨u, ns⟩ := k
  constructor
  · rintro h rfl
    exact lt_irrefl _ h
  · intro hne
    obtain ⟨ns, x, rfl⟩ := List.eq_nil_or_concat ns |>.resolve_left hne
    rw [List.concat_eq_append] at hk ⊢
    have hx : x ≠ [] := (hk.names x (by simp)).1
    rw [render_concat, floor]
    have := (isPrefix_render (r := r) u ns).length_le
    have := List.length_pos.mpr hx
    simp only [List.length_append]
    omega

end Kept

/-! ### The backtrack removes the last name -/

theorem backtrack_cons_append {dd : Nat} :
    ∀ {c : UInt8} {y R : GoString}, c ≠ 0x2F → 0x2F ∉ y → dd ≤ R.length →
      backtrack dd (c :: (y ++ R)) = if dd < R.length then backtrack dd R else R
  | c, [], R, hc, _, _ => by simp [backtrack, hc]
  | c, c' :: y, R, hc, hy, hR => by
    rw [List.cons_append, backtrack, if_pos ⟨by simp; omega, hc⟩]
    exact backtrack_cons_append (fun h => hy (h ▸ List.mem_cons_self _ _))
      (fun h => hy (List.mem_cons_of_mem _ h)) hR

namespace Kept

variable {r : Bool}

theorem backtrack_render {u : Nat} {ns : List GoString} {x : GoString}
    (hk : (⟨u, ns ++ [x]⟩ : Kept).Valid r) :
    backtrack ((⟨u, ns ++ [x]⟩ : Kept).floor r) (render r ⟨u, ns ++ [x]⟩).reverse =
      (render r ⟨u, ns⟩).reverse := by
  obtain ⟨hxne, hxs, -⟩ := hk.names x (by simp)
  obtain ⟨c, y, hcy⟩ := List.exists_cons_of_ne_nil (List.reverse_ne_nil_iff.mpr hxne)
  have hmem : ∀ b, b ∈ c :: y → b ∈ x := fun b hb => List.mem_reverse.mp (hcy ▸ hb)
  have hc : c ≠ 0x2F := fun h => hxs (h ▸ hmem c (List.mem_cons_self _ _))
  have hy : 0x2F ∉ y := fun h => hxs (hmem _ (List.mem_cons_of_mem _ h))
  have hfl := (isPrefix_render (r := r) u ns).length_le
  rw [render_concat, List.reverse_append, List.reverse_append, hcy, List.cons_append]
  split_ifs with he
  · have hu : ns = [] := (List.append_eq_nil.mp he).2
    subst hu
    rw [List.reverse_nil, List.nil_append, backtrack_cons_append hc hy (by simp [floor]),
      if_neg (by simp [floor])]
    rfl
  · rw [List.reverse_singleton, List.singleton_append,
      backtrack_cons_append hc hy (by simp [floor]; omega), if_pos (by simp [floor]; omega)]
    simp [backtrack]

end Kept

/-! ### One iteration per kind of element -/

section Steps

variable {r : Bool} (fuel : Nat) (rout : GoString) (dd : Nat)

theorem cleanLoop_nil : cleanLoop r fuel [] rout dd = rout := by
  cases fuel <;> rfl

theorem cleanLoop_slash (rest : GoString) :
    cleanLoop r (fuel + 1) (0x2F :: rest) rout dd = cleanLoop r fuel rest rout dd := by
  simp [cleanLoop]

variable {tail : GoString} (ht : tail = [] ∨ tail.head? = some 0x2F)
include ht

theorem cleanLoop_dot :
    cleanLoop r (fuel + 1) (dot ++ tail) rout dd = cleanLoop r fuel tail rout dd := by
  simp [cleanLoop, dot, ht]

theorem cleanLoop_dotDot :
    cleanLoop r (fuel + 1) (dotDot ++ tail) rout dd =
      if dd < rout.length then cleanLoop r fuel tail (backtrack dd rout) dd
      else if !r then
        cleanLoop r fuel tail (0x2E :: 0x2E :: if 0 < rout.length then 0x2F :: rout else rout)
          (0x2E :: 0x2E :: if 0 < rout.length then 0x2F :: rout else rout).length
      else cleanLoop r fuel tail rout dd := by
  rcases ht with rfl | ht <;> simp [cleanLoop, dotDot, *]

theorem takeWhile_name {e : GoString} (he : 0x2F ∉ e) :
    (e ++ tail).takeWhile (· != 0x2F) = e ∧ (e ++ tail).dropWhile (· != 0x2F) = tail := by
  have hp : ∀ a ∈ e, (a != 0x2F) = true := fun a ha => by
    simpa using fun h : a = 0x2F => he (h ▸ ha)
  rw [List.takeWhile_append_of_pos hp, List.dropWhile_append_of_pos hp]
  rcases tail with _ | ⟨t, tail⟩
  · simp
  · obtain rfl : t = 0x2F := by simpa using ht
    simp

theorem cleanLoop_name {e : GoString} (he : IsName e) :
    cleanLoop r (fuel + 1) (e ++ tail) rout dd =
      cleanLoop r fuel tail
        (e.reverse ++ if r && rout.length != 1 || !r && rout.length != 0 then 0x2F :: rout
          else rout) dd := by
  obtain ⟨hne, hs, hdot, hdd⟩ := he
  obtain ⟨c, cs, rfl⟩ := List.exists_cons_of_ne_nil hne
  have hcs : ∀ b ∈ c :: cs, b ≠ 0x2F := fun b hb h => hs (h ▸ hb)
  clear hne
  have hguard : c ≠ 0x2F ∧ ¬(c = 0x2E ∧ (cs ++ tail = [] ∨ (cs ++ tail).head? = some 0x2F)) ∧
      ¬(c = 0x2E ∧ (cs ++ tail).head? = some 0x2E ∧
        ((cs ++ tail).tail = [] ∨ (cs ++ tail).tail.head? = some 0x2F)) := by
    clear hs
    rcases cs with _ | ⟨c₁, _ | ⟨c₂, cs⟩⟩ <;> rcases ht with rfl | ht <;>
      simp_all [dot, dotDot]
  obtain ⟨h₁, h₂, h₃⟩ := hguard
  rw [List.cons_append, cleanLoop, if_neg h₁, if_neg h₂, if_neg h₃, ← List.cons_append,
    (takeWhile_name ht hs).1, (takeWhile_name ht hs).2]

end Steps

/-! ### One element -/

namespace Kept

variable {r : Bool} {k : Kept}

theorem valid_push (hk : k.Valid r) {e : GoString} (he : 0x2F ∉ e) : (k.push r e).Valid r := by
  unfold push
  split_ifs with h₁ h₂ h₃ h₄
  · exact hk
  · exact ⟨fun x hx => hk.names x (List.dropLast_subset _ hx), hk.ups⟩
  · exact hk
  · exact ⟨by simp, by simpa using h₄⟩
  · refine ⟨fun x hx => ?_, hk.ups⟩
    rcases List.mem_append.mp hx with hx | hx
    · exact hk.names x hx
    · obtain rfl := List.mem_singleton.mp hx
      exact ⟨fun h => h₁ (.inl h), he, fun h => h₁ (.inr h), h₂⟩

theorem needsSlash_iff (hk : k.Valid r) :
    (r && (k.render r).length != 1 || !r && (k.render r).length != 0) = true ↔ k.elems ≠ [] := by
  have h := intercalate_eq_nil_iff (0x2F : UInt8) (elems_ne_nil_of_mem hk)
  cases r <;> simp [render, h]

/-- **One element.** From the state that encodes `k`, the loop reads the element `e` and reaches
the state that encodes `k.push r e`. -/
theorem cleanLoop_push (hk : k.Valid r) {e tail R : GoString} (he : 0x2F ∉ e)
    (ht : tail = [] ∨ tail.head? = some 0x2F)
    (hrest : ∀ fuel, tail.length ≤ fuel →
      cleanLoop r fuel tail ((k.push r e).render r).reverse ((k.push r e).floor r) = R) :
    ∀ fuel, (e ++ tail).length ≤ fuel →
      cleanLoop r fuel (e ++ tail) (k.render r).reverse (k.floor r) = R := by
  obtain ⟨u, ns⟩ := k
  intro fuel hfuel
  by_cases h₀ : e = []
  · subst h₀
    simpa [push] using hrest fuel hfuel
  have hlen := List.length_pos.mpr h₀
  obtain ⟨fuel, rfl⟩ : ∃ f, fuel = f + 1 :=
    Nat.exists_eq_succ_of_ne_zero (by simp at hfuel; omega)
  have hr := hrest fuel (by simp at hfuel; omega)
  by_cases h₁ : e = dot
  · subst h₁
    rw [cleanLoop_dot _ _ _ ht]
    simpa [push] using hr
  by_cases h₂ : e = dotDot
  · subst h₂
    rw [cleanLoop_dotDot _ _ _ ht, List.length_reverse]
    rcases List.eq_nil_or_concat ns with rfl | ⟨ns, x, rfl⟩
    · rw [if_neg (by rw [floor_lt_length_iff hk]; simp)]
      cases r
      · simp [push, dot, dotDot] at hr
        rw [Bool.not_false, if_pos rfl, ← reverse_render_up, ← hr, floor, List.length_reverse]
      · simpa [push, dot, dotDot] using hr
    · rw [List.concat_eq_append] at hk hr ⊢
      rw [if_pos ((floor_lt_length_iff hk).mpr (by simp)), backtrack_render hk]
      simpa [push, dot, dotDot, floor] using hr
  · rw [cleanLoop_name _ _ _ ht ⟨h₀, he, h₁, h₂⟩, List.length_reverse]
    simp only [push, h₀, h₁, h₂, or_self, ↓reduceIte] at hr
    rw [← hr, render_concat, floor, floor]
    by_cases hne : (⟨u, ns⟩ : Kept).elems = []
    · rw [if_neg (by rw [needsSlash_iff hk]; simpa using hne)]
      simp [hne]
    · rw [if_pos ((needsSlash_iff hk).mpr hne)]
      simp [hne]

end Kept

/-! ### The whole loop -/

theorem slash_not_mem_elements : ∀ {path e : GoString}, e ∈ elements path → 0x2F ∉ e
  | [], e, he => by simp_all [elements]
  | c :: path, e, he => by
    have ih := @slash_not_mem_elements path
    unfold elements List.splitOn at *
    rw [List.splitOnP_cons] at he
    split_ifs at he with hc
    · rcases List.mem_cons.mp he with rfl | he
      · simp
      · exact ih he
    · obtain ⟨h, t, ht⟩ := List.exists_cons_of_ne_nil (List.splitOnP_ne_nil _ path)
      rw [ht] at he ih
      rcases List.mem_cons.mp he with rfl | he
      · simp only [List.mem_cons, not_or]
        exact ⟨fun h => by simp [← h] at hc, ih (List.mem_cons_self _ _)⟩
      · exact ih (List.mem_cons_of_mem _ he)

theorem cleanLoop_intercalate {r : Bool} :
    ∀ {es : List GoString} {k : Kept}, es ≠ [] → (∀ e ∈ es, 0x2F ∉ e) → k.Valid r →
      ∀ fuel, ([0x2F].intercalate es).length ≤ fuel →
        cleanLoop r fuel ([0x2F].intercalate es) (k.render r).reverse (k.floor r) =
          ((es.foldl (Kept.push r) k).render r).reverse
  | [e], k, _, hes, hk => by
    simpa [List.intercalate] using
      Kept.cleanLoop_push hk (hes e (by simp)) (.inl rfl) fun fuel _ => cleanLoop_nil ..
  | e :: e' :: es, k, _, hes, hk => by
    rw [intercalate_cons_cons, List.foldl_cons]
    refine Kept.cleanLoop_push hk (hes e (by simp)) (.inr rfl) fun fuel hfuel => ?_
    obtain ⟨fuel, rfl⟩ : ∃ f, fuel = f + 1 :=
      Nat.exists_eq_succ_of_ne_zero (by simp at hfuel; omega)
    rw [cleanLoop_slash]
    exact cleanLoop_intercalate (List.cons_ne_nil _ _)
      (fun x hx => hes x (List.mem_cons_of_mem _ hx)) (Kept.valid_push hk (hes e (by simp)))
      fuel (by simpa using hfuel)

/-- The loop of `Clean`, from its start, over all of `input`: the elements of `input` pushed in
order. -/
theorem cleanLoop_elements (r : Bool) (input : GoString) (fuel : Nat) (h : input.length ≤ fuel) :
    cleanLoop r fuel input ((⟨0, []⟩ : Kept).render r).reverse ((⟨0, []⟩ : Kept).floor r) =
      (((elements input).foldl (Kept.push r) ⟨0, []⟩).render r).reverse := by
  have hin : [0x2F].intercalate (elements input) = input := List.intercalate_splitOn input _
  have h0 : (⟨0, []⟩ : Kept).Valid r := ⟨by simp, fun _ => rfl⟩
  have key : cleanLoop r fuel ([0x2F].intercalate (elements input))
      ((⟨0, []⟩ : Kept).render r).reverse ((⟨0, []⟩ : Kept).floor r) =
        (((elements input).foldl (Kept.push r) ⟨0, []⟩).render r).reverse :=
    cleanLoop_intercalate (List.splitOnP_ne_nil _ _) (fun _ => slash_not_mem_elements) h0 fuel
      ((congrArg List.length hin).trans_le h)
  rwa [hin] at key

/-- **`path.Clean` follows its doc comment.** The byte loop of `Clean`, with its `dotdot` mark
and its backtrack, computes `cleanSpec`, the rules of the doc comment applied element by
element. -/
theorem clean_eq_cleanSpec (path : GoString) : clean path = cleanSpec path := by
  rcases path with _ | ⟨c, rest⟩
  · rfl
  by_cases hc : c = 0x2F
  · subst hc
    have h := cleanLoop_elements true rest (rest.length + 1) (by simp)
    have he : elements (0x2F :: rest) = [] :: elements rest := by
      simp [elements, List.splitOn]
    have hp : Kept.push true ⟨0, []⟩ [] = ⟨0, []⟩ := by simp [Kept.push]
    rw [show (⟨0, []⟩ : Kept).render true = [0x2F] from rfl,
      show (⟨0, []⟩ : Kept).floor true = 1 from rfl, List.reverse_singleton] at h
    simp only [clean, cleanSpec, List.cons_ne_nil, if_false, List.head?_cons, decide_True,
      if_true, List.tail_cons, List.length_cons, h, he, List.foldl_cons, hp,
      List.reverse_eq_nil_iff, List.reverse_reverse]
  · have h := cleanLoop_elements false (c :: rest) (rest.length + 1) (by simp)
    rw [show (⟨0, []⟩ : Kept).render false = [] from rfl,
      show (⟨0, []⟩ : Kept).floor false = 0 from rfl, List.reverse_nil] at h
    simp only [clean, cleanSpec, List.cons_ne_nil, if_false, List.head?_cons, Option.some.injEq,
      hc, decide_False, Bool.false_eq_true, List.length_cons, h, List.reverse_eq_nil_iff,
      List.reverse_reverse]

/-! ## What `Clean` returns -/

namespace Kept

variable {r : Bool} {k : Kept}

theorem valid_foldl_push : ∀ {es : List GoString} {k : Kept}, k.Valid r → (∀ e ∈ es, 0x2F ∉ e) →
    (es.foldl (push r) k).Valid r
  | [], _, hk, _ => hk
  | e :: es, _, hk, hes => by
    rw [List.foldl_cons]
    exact valid_foldl_push (valid_push hk (hes e (List.mem_cons_self _ _)))
      fun x hx => hes x (List.mem_cons_of_mem _ hx)

theorem foldl_push_names (u : Nat) : ∀ {ns : List GoString} (ms : List GoString),
    (∀ x ∈ ns, IsName x) → ns.foldl (push r) ⟨u, ms⟩ = ⟨u, ms ++ ns⟩
  | [], ms, _ => by simp
  | x :: ns, ms, h => by
    obtain ⟨h₀, -, h₁, h₂⟩ := h x (List.mem_cons_self _ _)
    rw [List.foldl_cons, show push r ⟨u, ms⟩ x = ⟨u, ms ++ [x]⟩ by simp [push, h₀, h₁, h₂],
      foldl_push_names u _ fun y hy => h y (List.mem_cons_of_mem _ hy)]
    simp

theorem foldl_push_ups : ∀ (u v : Nat),
    (List.replicate u dotDot).foldl (push false) ⟨v, []⟩ = ⟨v + u, []⟩
  | 0, v => rfl
  | u + 1, v => by
    rw [List.replicate_succ, List.foldl_cons,
      show push false ⟨v, []⟩ dotDot = ⟨v + 1, []⟩ by simp [push, dot, dotDot],
      foldl_push_ups u (v + 1)]
    simp only [Nat.add_assoc, Nat.add_comm 1 u]

/-- Read back, the elements kept are kept again. -/
theorem foldl_push_elems (hk : k.Valid r) : k.elems.foldl (push r) ⟨0, []⟩ = k := by
  obtain ⟨u, ns⟩ := k
  cases r
  · rw [elems, List.foldl_append, foldl_push_ups, Nat.zero_add]
    dsimp only
    rw [foldl_push_names u _ hk.names]
    simp
  · obtain rfl : u = 0 := hk.ups rfl
    simpa [elems] using foldl_push_names 0 [] hk.names

theorem slash_not_mem_elems (hk : k.Valid r) : ∀ x ∈ k.elems, 0x2F ∉ x := by
  intro x hx
  rcases List.mem_append.mp hx with h | h
  · rw [List.eq_of_mem_replicate h]
    decide
  · exact (hk.names x h).2.1

/-- The elements of a path `Clean` returns read back to what was kept. -/
theorem foldl_push_elements_render (hk : k.Valid r) :
    (elements (k.render r)).foldl (push r) ⟨0, []⟩ = k := by
  have hsplit : k.elems ≠ [] → elements ([0x2F].intercalate k.elems) = k.elems :=
    List.splitOn_intercalate k.elems 0x2F (slash_not_mem_elems hk)
  by_cases he : k.elems = []
  · obtain ⟨u, ns⟩ := k
    obtain ⟨rfl, rfl⟩ : u = 0 ∧ ns = [] := by simpa [elems] using he
    cases r <;> rfl
  · cases r
    · simpa [render, hsplit he] using foldl_push_elems hk
    · have h1 : elements (0x2F :: [0x2F].intercalate k.elems) =
          [] :: elements ([0x2F].intercalate k.elems) := by
        simp only [elements, List.splitOn, List.splitOnP_cons, beq_self_eq_true, if_true]
      rw [hsplit he] at h1
      simpa [render, h1, push] using foldl_push_elems hk

theorem rooted_render (hk : k.Valid r) (hne : k.render r ≠ []) :
    decide ((k.render r).head? = some 0x2F) = r := by
  cases r
  · obtain ⟨x, xs, hx⟩ := List.exists_cons_of_ne_nil
      (show k.elems ≠ [] from fun h => hne (by simp [render, h, List.intercalate]))
    have hx0 : x ≠ [] := elems_ne_nil_of_mem hk x (hx ▸ List.mem_cons_self _ _)
    have hxs : 0x2F ∉ x := slash_not_mem_elems hk x (hx ▸ List.mem_cons_self _ _)
    obtain ⟨c, cs, rfl⟩ := List.exists_cons_of_ne_nil hx0
    have hc : c ≠ 0x2F := fun h => hxs (h ▸ List.mem_cons_self _ _)
    have hhead : (render false k).head? = some c := by
      rw [render, hx]
      rcases xs with _ | ⟨y, xs⟩ <;> simp [List.intercalate]
    simp [hhead, hc]
  · simp [render]

/-- `Clean` leaves a path it returned as it is. -/
theorem cleanSpec_render (hk : k.Valid r) (hne : k.render r ≠ []) :
    cleanSpec (k.render r) = k.render r := by
  simp only [cleanSpec, rooted_render hk hne, foldl_push_elements_render hk, hne, if_false]

/-- A rooted path `Clean` returns has no `..` element. -/
theorem dotDot_not_mem_elements_render (hk : k.Valid true) : dotDot ∉ elements (k.render true) := by
  have hnames : k.elems = k.names := by simp [elems, hk.ups rfl]
  by_cases he : k.names = []
  · rw [render, hnames, he]
    decide
  · have hsplit : elements ([0x2F].intercalate k.elems) = k.elems :=
      List.splitOn_intercalate k.elems 0x2F (slash_not_mem_elems hk) (hnames ▸ he)
    have h1 : elements (0x2F :: [0x2F].intercalate k.elems) =
        [] :: elements ([0x2F].intercalate k.elems) := by
      simp only [elements, List.splitOn, List.splitOnP_cons, beq_self_eq_true, if_true]
    rw [hsplit, hnames] at h1
    rw [show k.render true = 0x2F :: [0x2F].intercalate k.elems from rfl, hnames, h1,
      List.mem_cons, not_or]
    exact ⟨by decide, fun h => (hk.names _ h).2.2.2 rfl⟩

end Kept

/-- `Clean` returns `.` or the path of a valid state. -/
theorem cleanSpec_cases (path : GoString) :
    cleanSpec path = dot ∨ ∃ r k, Kept.Valid r k ∧ k.render r ≠ [] ∧ cleanSpec path = k.render r := by
  simp only [cleanSpec]
  split_ifs with h
  · exact .inl rfl
  · exact .inr ⟨_, _, Kept.valid_foldl_push ⟨by simp, fun _ => rfl⟩
      fun _ => slash_not_mem_elements, h, rfl⟩

/-- **`Clean` is idempotent.** -/
theorem clean_clean (path : GoString) : clean (clean path) = clean path := by
  rw [clean_eq_cleanSpec, clean_eq_cleanSpec]
  rcases cleanSpec_cases path with h | ⟨r, k, hk, hne, h⟩ <;> rw [h]
  · rfl
  · exact Kept.cleanSpec_render hk hne

/-- `Clean` keeps a rooted path rooted, and leaves no `..` element in it. -/
theorem cleanSpec_rooted {path : GoString} (h : path.head? = some 0x2F) :
    (cleanSpec path).head? = some 0x2F ∧ dotDot ∉ elements (cleanSpec path) := by
  have hK : ((elements path).foldl (Kept.push true) ⟨0, []⟩).Valid true :=
    Kept.valid_foldl_push ⟨by simp, fun _ => rfl⟩ fun _ => slash_not_mem_elements
  simp only [cleanSpec, h, decide_True]
  rw [if_neg (by simp [Kept.render])]
  exact ⟨by simp [Kept.render], Kept.dotDot_not_mem_elements_render hK⟩

/-! ## A name under a clean rooted path -/

theorem elements_append_slash : ∀ (a b : GoString),
    elements (a ++ 0x2F :: b) = elements a ++ elements b
  | [], b => by simp [elements, List.splitOn]
  | c :: a, b => by
    have ih := elements_append_slash a b
    obtain ⟨h, t, ht⟩ := List.exists_cons_of_ne_nil (List.splitOnP_ne_nil (· == 0x2F) a)
    unfold elements List.splitOn at *
    rw [List.cons_append, List.splitOnP_cons, List.splitOnP_cons, ih, ht]
    split_ifs <;> simp

theorem foldl_push_of_not_dotDot {r : Bool} :
    ∀ {es : List GoString} (k : Kept), dotDot ∉ es →
      ∃ extra, es.foldl (Kept.push r) k = ⟨k.ups, k.names ++ extra⟩
  | [], k, _ => ⟨[], by simp⟩
  | e :: es, k, h => by
    have he : e ≠ dotDot := fun h' => h (h' ▸ List.mem_cons_self _ _)
    have hes : dotDot ∉ es := fun h' => h (List.mem_cons_of_mem _ h')
    by_cases h₀ : e = [] ∨ e = dot
    · obtain ⟨extra, hx⟩ := foldl_push_of_not_dotDot k hes
      exact ⟨extra, by simpa [Kept.push, h₀] using hx⟩
    · obtain ⟨extra, hx⟩ := foldl_push_of_not_dotDot ⟨k.ups, k.names ++ [e]⟩ hes
      exact ⟨e :: extra, by simpa [Kept.push, h₀, he] using hx⟩

/-- A name without `..` elements, after a clean rooted path `d` other than `/`, cleans to `d` or to
a path in it. -/
theorem cleanSpec_append_slash {d f : GoString} (hd : cleanSpec d = d)
    (hroot : d.head? = some 0x2F) (hne : d ≠ [0x2F]) (hf : dotDot ∉ elements f) :
    cleanSpec (d ++ 0x2F :: f) = d ∨ ∃ rest, cleanSpec (d ++ 0x2F :: f) = d ++ 0x2F :: rest := by
  have hd0 : d ≠ [] := by rintro rfl; simp at hroot
  set K := (elements d).foldl (Kept.push true) ⟨0, []⟩ with hKdef
  have hK : K.Valid true := Kept.valid_foldl_push ⟨by simp, fun _ => rfl⟩ fun _ =>
    slash_not_mem_elements
  have hKne : K.render true ≠ [] := by simp [Kept.render]
  have hdK : K.render true = d := by
    simp only [cleanSpec, hroot, decide_True, ← hKdef, hKne, if_false] at hd
    exact hd
  have hu : K.ups = 0 := hK.ups rfl
  obtain ⟨extra, hx⟩ := foldl_push_of_not_dotDot (r := true) K hf
  have hout : cleanSpec (d ++ 0x2F :: f) = Kept.render true ⟨0, K.names ++ extra⟩ := by
    simp [cleanSpec, List.head?_append, hroot, elements_append_slash, ← hKdef, hx, hu,
      Kept.render]
  rcases List.eq_nil_or_concat extra with rfl | ⟨ex, x, rfl⟩
  · left
    rw [hout, List.append_nil, ← hdK, ← hu]
  · right
    have hn : K.names ≠ [] := fun h => hne (by rw [← hdK]; simp [Kept.render, Kept.elems, hu, h,
      List.intercalate])
    refine ⟨[0x2F].intercalate (ex ++ [x]), ?_⟩
    rw [hout, ← hdK, Kept.render, Kept.render, Kept.elems, Kept.elems, hu, List.concat_eq_append,
      List.replicate_zero, List.nil_append, List.nil_append, intercalate_append _ hn (by simp)]
    simp

/-- `path.Join(d, f)` for a non-empty `d`: `d`, a slash and `f`, cleaned. -/
theorem join_pair {d : GoString} (hd : d ≠ []) (f : GoString) :
    join [d, f] = clean (d ++ 0x2F :: f) := by
  have : 0 < d.length := List.length_pos.mpr hd
  simp [join, hd, this]

end GoPath

end Adele
