import Adele.Provider.Types
import Mathlib.Data.List.Sort

/-!
# Priority resolution and the stable insertion sort

Model of `sortProvidersByPriority` (`provider/provider.go:102-145`).

* `resolvedPriority` is the loop body of `provider.go:110-124`, with its two branches as the code
  writes them; `resolvedPriority_eq` flattens it into the precedence of the spec (§4.3).
* The insertion sort runs on the slice `withPriority` with its indices: `shiftLoop` is the inner
  `for j >= 0 && withPriority[j].priority > key.priority` loop, counting the hole `j + 1`;
  `sortStep` is one iteration of the outer loop, and `insertionSortLoop` runs it for
  `i = 1, …, len - 1`.
* `insertFromEnd` is what the inner loop does to the sorted prefix read from its end: pass the
  entries of higher priority, then place the key. `shiftLoop_set` and `insertionSortLoop_eq`
  prove the index loops equal to the fold of it over the input (`insertSortList`).

Results:
* `eq_of_sorted_of_filter_eq` — a stable sort is unique: two permutations of one list, both
  sorted by `f` and listing each priority's elements in the same order, are equal.
* `filter_mergeSort` — `List.mergeSort` by `f` keeps each priority's elements in input order.
* `sortProvidersByPriority_stable` — the Go sort is the stable ascending sort by the resolved
  priority: a permutation, sorted, ties in input order, and equal to `List.mergeSort`.
-/

namespace Adele

variable {W : Type}

/-- `providerWithPriority` (`provider.go:103-106`). -/
structure ProviderWithPriority (W : Type) where
  provider : ServiceProvider W
  priority : Int

namespace Provider

/-- The priority the loop of `provider.go:110-124` gives a provider. -/
def resolvedPriority (p : Provider) (prov : ServiceProvider W) : Int :=
  match p.getProviderConfig prov.name with
  | some config =>
    match config "priority" with
    | some (.int customPriority) => customPriority
    | _ =>
      match prov.priority with
      | some pp => pp
      | none => 100
  | none =>
    match prov.priority with
    | some pp => pp
    | none => 100

/-- The precedence as the spec states it: an `int` under `"priority"` in a non-nil payload,
else the provider's own `Priority()`, else 100. -/
def specPriority (p : Provider) (prov : ServiceProvider W) : Int :=
  match (p.getProviderConfig prov.name).bind (· "priority") with
  | some (.int n) => n
  | _ => prov.priority.getD 100

theorem resolvedPriority_eq (p : Provider) (prov : ServiceProvider W) :
    p.resolvedPriority prov = p.specPriority prov := by
  unfold resolvedPriority specPriority
  rcases p.getProviderConfig prov.name with _ | config
  · cases prov.priority <;> rfl
  · rcases config "priority" with _ | (_ | _ | _ | _ | _) <;> cases prov.priority <;> rfl

end Provider

/-! ## The insertion sort on the slice -/

/-- The inner loop (`provider.go:132-136`), with `hole = j + 1`: while the entry left of the hole
has a higher priority than `key`, move it into the hole. Returns the slice and the final hole. -/
def shiftLoop (key : ProviderWithPriority W) (a : List (ProviderWithPriority W)) :
    Nat → List (ProviderWithPriority W) × Nat
  | 0 => (a, 0)
  | j + 1 =>
    match a[j]? with
    | some e => if e.priority > key.priority then shiftLoop key (a.set (j + 1) e) j else (a, j + 1)
    | none => (a, j + 1)

/-- Iteration `i` of the outer loop (`provider.go:131-137`): take `key := withPriority[i]`, run
the inner loop from `j = i - 1`, store `key` in the hole. -/
def sortStep (a : List (ProviderWithPriority W)) (i : Nat) : List (ProviderWithPriority W) :=
  match a[i]? with
  | some key =>
    let r := shiftLoop key a i
    r.1.set r.2 key
  | none => a

/-- The outer loop, `for i := 1; i < len(withPriority); i++` (`provider.go:130-138`). -/
def insertionSortLoop (a : List (ProviderWithPriority W)) : List (ProviderWithPriority W) :=
  (List.range' 1 (a.length - 1)).foldl sortStep a

namespace Provider

/-- `sortProvidersByPriority` (`provider.go:102-145`). -/
def sortProvidersByPriority (p : Provider) (providers : List (ServiceProvider W)) :
    List (ServiceProvider W) :=
  let withPriority := providers.map fun prov => ⟨prov, p.resolvedPriority prov⟩
  (insertionSortLoop withPriority).map (·.provider)

end Provider

/-! ## The loops as list operations -/

/-- The inner loop on a sorted prefix read from its end. -/
def insertFromEnd (key : ProviderWithPriority W) :
    List (ProviderWithPriority W) → List (ProviderWithPriority W)
  | [] => [key]
  | e :: es => if e.priority > key.priority then e :: insertFromEnd key es else key :: e :: es

/-- `key` stored in the sorted prefix `acc`: the inner loop, on lists. -/
def insertKey (acc : List (ProviderWithPriority W)) (key : ProviderWithPriority W) :
    List (ProviderWithPriority W) :=
  (insertFromEnd key acc.reverse).reverse

/-- The outer loop on lists: each entry inserted into the sorted prefix before it. -/
def insertSortList (l : List (ProviderWithPriority W)) : List (ProviderWithPriority W) :=
  l.foldl insertKey []

/-- The inner loop and the store of `key`, on a slice whose first `R.length` entries are `R`
reversed and whose hole holds `x`. -/
theorem shiftLoop_set (key : ProviderWithPriority W) (S : List (ProviderWithPriority W)) :
    ∀ (R B : List (ProviderWithPriority W)) (x : ProviderWithPriority W),
      (let r := shiftLoop key (R.reverse ++ x :: (B ++ S)) R.length; r.1.set r.2 key) =
        (insertFromEnd key R).reverse ++ B ++ S
  | [], B, x => by simp [shiftLoop, insertFromEnd]
  | e :: R, B, x => by
    have he : (R.reverse ++ [e] ++ x :: (B ++ S))[R.length]? = some e := by
      rw [List.append_assoc, List.getElem?_append_right (by simp)]
      simp
    simp only [List.reverse_cons, List.length_cons, shiftLoop, he, insertFromEnd]
    split
    · have hs : (R.reverse ++ [e] ++ x :: (B ++ S)).set (R.length + 1) e =
          R.reverse ++ e :: ((e :: B) ++ S) := by
        simp [List.set_append_right]
      rw [hs, shiftLoop_set key S R (e :: B) e]
      simp
    · simp [List.set_append_right]

theorem sortStep_eq (P S : List (ProviderWithPriority W)) (x : ProviderWithPriority W) :
    sortStep (P ++ x :: S) P.length = insertKey P x ++ S := by
  have h := shiftLoop_set x S P.reverse [] x
  simp only [List.reverse_reverse, List.length_reverse, List.nil_append] at h
  have hx : (P ++ x :: S)[P.length]? = some x := by
    rw [List.getElem?_append_right (Nat.le_refl _)]
    simp
  simp only [sortStep, hx]
  simpa using h

/-! ## The list view: a permutation, sorted, stable -/

theorem perm_insertFromEnd (key : ProviderWithPriority W) :
    ∀ l, List.Perm (insertFromEnd key l) (key :: l)
  | [] => .refl _
  | e :: es => by
    unfold insertFromEnd
    split
    · exact ((perm_insertFromEnd key es).cons e).trans (.swap key e es)
    · exact .refl _

theorem filter_insertFromEnd (key : ProviderWithPriority W) (k : Int) :
    ∀ l, (insertFromEnd key l).filter (·.priority = k) = (key :: l).filter (·.priority = k)
  | [] => rfl
  | e :: es => by
    unfold insertFromEnd
    split
    · rename_i h
      rw [List.filter_cons, filter_insertFromEnd key k es]
      by_cases he : e.priority = k <;> by_cases hk : key.priority = k <;>
        simp_all [List.filter_cons]
    · rfl

theorem sorted_insertFromEnd (key : ProviderWithPriority W) :
    ∀ l : List (ProviderWithPriority W), l.Sorted (fun a b => b.priority ≤ a.priority) →
      (insertFromEnd key l).Sorted (fun a b => b.priority ≤ a.priority)
  | [], _ => List.sorted_singleton _
  | e :: es, h => by
    rw [List.sorted_cons] at h
    unfold insertFromEnd
    split
    · rename_i hlt
      refine List.sorted_cons.mpr ⟨fun b hb => ?_, sorted_insertFromEnd key es h.2⟩
      rcases List.mem_cons.mp ((perm_insertFromEnd key es).mem_iff.mp hb) with rfl | hb
      · exact le_of_lt hlt
      · exact h.1 b hb
    · rename_i hge
      refine List.sorted_cons.mpr ⟨fun b hb => ?_, List.sorted_cons.mpr h⟩
      rcases List.mem_cons.mp hb with rfl | hb
      · exact le_of_not_lt hge
      · exact le_trans (h.1 b hb) (le_of_not_lt hge)

theorem foldl_insertKey_perm :
    ∀ (acc l : List (ProviderWithPriority W)), List.Perm (l.foldl insertKey acc) (acc ++ l)
  | acc, [] => by simp
  | acc, x :: xs => by
    refine (foldl_insertKey_perm (insertKey acc x) xs).trans ?_
    have : List.Perm (insertKey acc x) (acc ++ [x]) :=
      (List.reverse_perm _).trans ((perm_insertFromEnd x _).trans
        (by simpa using (List.reverse_perm (x :: acc.reverse)).symm))
    simpa using this.append_right xs

theorem filter_foldl_insertKey (k : Int) :
    ∀ (acc l : List (ProviderWithPriority W)),
      (l.foldl insertKey acc).filter (·.priority = k) =
        acc.filter (·.priority = k) ++ l.filter (·.priority = k)
  | acc, [] => by simp
  | acc, x :: xs => by
    rw [List.foldl_cons, filter_foldl_insertKey k (insertKey acc x) xs]
    by_cases hx : x.priority = k <;> simp [insertKey, filter_insertFromEnd, List.filter_cons, hx]

theorem sorted_foldl_insertKey :
    ∀ (acc l : List (ProviderWithPriority W)), acc.Sorted (fun a b => a.priority ≤ b.priority) →
      (l.foldl insertKey acc).Sorted (fun a b => a.priority ≤ b.priority)
  | acc, [], h => h
  | acc, x :: xs, h => by
    refine sorted_foldl_insertKey (insertKey acc x) xs ?_
    unfold insertKey List.Sorted at *
    rw [List.pairwise_reverse]
    exact sorted_insertFromEnd x _ (List.pairwise_reverse.mpr h)

theorem length_insertSortList (l : List (ProviderWithPriority W)) :
    (insertSortList l).length = l.length := by
  simpa using (foldl_insertKey_perm [] l).length_eq

/-! ## The index loops compute the list view -/

/-- After `k` iterations of the outer loop, the first `k + 1` entries are sorted. -/
theorem foldl_sortStep (a : List (ProviderWithPriority W)) :
    ∀ k, k + 1 ≤ a.length →
      (List.range' 1 k).foldl sortStep a = insertSortList (a.take (k + 1)) ++ a.drop (k + 1)
  | 0, h => by
    obtain ⟨x, S, rfl⟩ : ∃ x S, a = x :: S := List.exists_cons_of_length_pos (by omega)
    simp [insertSortList, insertKey, insertFromEnd]
  | k + 1, h => by
    rw [List.range'_1_concat, List.foldl_append, foldl_sortStep a k (by omega),
      List.drop_eq_getElem_cons (by omega)]
    have hl : (insertSortList (a.take (k + 1))).length = k + 1 := by
      rw [length_insertSortList]
      simp
      omega
    have := sortStep_eq (insertSortList (a.take (k + 1))) (a.drop (k + 1 + 1)) a[k + 1]
    rw [hl] at this
    have ht : a.take (k + 1 + 1) = a.take (k + 1) ++ [a[k + 1]] := by
      rw [List.take_succ, List.getElem?_eq_getElem (by omega)]
      rfl
    simp only [List.foldl_cons, List.foldl_nil, Nat.add_comm 1 k]
    rw [this, ht, insertSortList, insertSortList, List.foldl_append]
    rfl

theorem insertionSortLoop_eq (a : List (ProviderWithPriority W)) :
    insertionSortLoop a = insertSortList a := by
  rcases a with _ | ⟨x, S⟩
  · rfl
  · have := foldl_sortStep (x :: S) S.length (by simp)
    simpa [insertionSortLoop] using this

/-! ## Stable sorts -/

section Stable

variable {α : Type} {f : α → Int}

/-- The head of a sorted list is at or below the head of any permutation of it. -/
theorem head_le_of_perm {x y : α} {t u : List α} (hp : List.Perm (x :: t) (y :: u))
    (h : (x :: t).Sorted (fun a b => f a ≤ f b)) : f x ≤ f y := by
  rcases List.mem_cons.mp (hp.mem_iff.mpr (List.mem_cons_self y u)) with rfl | hy
  · exact le_rfl
  · exact List.rel_of_sorted_cons h y hy

/-- **A stable sort is unique**: two permutations of one list, both sorted by `f`, that list the
elements of each priority in the same order, are equal. -/
theorem eq_of_sorted_of_filter_eq :
    ∀ {l₁ l₂ : List α}, List.Perm l₁ l₂ → l₁.Sorted (fun a b => f a ≤ f b) →
      l₂.Sorted (fun a b => f a ≤ f b) →
      (∀ k, l₁.filter (fun a => f a = k) = l₂.filter (fun a => f a = k)) → l₁ = l₂
  | [], _, hp, _, _, _ => hp.nil_eq
  | _ :: _, [], hp, _, _, _ => absurd hp.length_eq (by simp)
  | a :: t₁, b :: t₂, hp, h₁, h₂, hf => by
    have hk : f b = f a := le_antisymm (head_le_of_perm hp.symm h₂) (head_le_of_perm hp h₁)
    have hab : a = b := by
      have := hf (f a)
      rw [List.filter_cons_of_pos (by simp), List.filter_cons_of_pos (by simp [hk])] at this
      exact (List.cons.inj this).1
    subst hab
    congr 1
    refine eq_of_sorted_of_filter_eq hp.cons_inv h₁.of_cons h₂.of_cons fun k => ?_
    have := hf k
    simp only [List.filter_cons] at this
    split_ifs at this
    · exact (List.cons.inj this).2
    · exact this

theorem sorted_mergeSort_by (l : List α) :
    (l.mergeSort fun a b => decide (f a ≤ f b)).Sorted (fun a b => f a ≤ f b) :=
  (List.sorted_mergeSort (fun a b c => by simp only [decide_eq_true_eq]; omega)
    (fun a b => by simp only [Bool.or_eq_true, decide_eq_true_eq]; omega) l).imp
    (fun h => of_decide_eq_true h)

/-- `List.mergeSort` by `f` lists the elements of each priority in input order. -/
theorem filter_mergeSort (l : List α) (k : Int) :
    (l.mergeSort fun a b => decide (f a ≤ f b)).filter (fun a => f a = k) =
      l.filter (fun a => f a = k) := by
  have hc : (l.filter (fun a => f a = k)).Pairwise fun a b => decide (f a ≤ f b) :=
    List.pairwise_filter.mpr (List.pairwise_of_forall fun a b ha hb => by simp_all)
  have hsub := (List.sublist_mergeSort (fun a b c => by simp only [decide_eq_true_eq]; omega)
    (fun a b => by simp only [Bool.or_eq_true, decide_eq_true_eq]; omega) hc
    (List.filter_sublist l)).filter (fun a => f a = k)
  simp only [List.filter_filter, Bool.and_self] at hsub
  exact (hsub.eq_of_length ((List.mergeSort_perm l _).filter _).length_eq.symm).symm

/-- Sorting by two keys that agree on the list gives one list. -/
theorem mergeSort_congr_key {g : α → Int} {l : List α} (h : ∀ a ∈ l, f a = g a) :
    l.mergeSort (fun a b => decide (f a ≤ f b)) = l.mergeSort (fun a b => decide (g a ≤ g b)) := by
  have hmem : ∀ a ∈ l.mergeSort (fun a b => decide (g a ≤ g b)), f a = g a :=
    fun a ha => h a ((List.mergeSort_perm l _).mem_iff.mp ha)
  refine eq_of_sorted_of_filter_eq ((List.mergeSort_perm l _).trans (List.mergeSort_perm l _).symm)
    (sorted_mergeSort_by l) ((sorted_mergeSort_by (f := g) l).imp_of_mem fun ha hb hab => ?_)
    fun k => ?_
  · rwa [hmem _ ha, hmem _ hb]
  · have hl : l.filter (fun a => f a = k) = l.filter (fun a => g a = k) :=
      List.filter_congr fun a ha => by rw [h a ha]
    have hs : (l.mergeSort fun a b => decide (g a ≤ g b)).filter (fun a => f a = k) =
        (l.mergeSort fun a b => decide (g a ≤ g b)).filter (fun a => g a = k) :=
      List.filter_congr fun a ha => by rw [hmem a ha]
    rw [filter_mergeSort, hs, filter_mergeSort, hl]

end Stable

/-! ## `sortProvidersByPriority` is the stable sort -/

/-- Every entry the sort moves carries its own provider's priority. -/
theorem priority_of_mem_insertSortList {p : Provider} {ps : List (ServiceProvider W)}
    {e : ProviderWithPriority W}
    (he : e ∈ insertSortList (ps.map fun prov => ⟨prov, p.resolvedPriority prov⟩)) :
    e.priority = p.specPriority e.provider := by
  obtain ⟨prov, -, rfl⟩ := List.mem_map.mp ((foldl_insertKey_perm [] _).mem_iff.mp he)
  exact p.resolvedPriority_eq prov

theorem sortProvidersByPriority_eq_map (p : Provider) (ps : List (ServiceProvider W)) :
    p.sortProvidersByPriority ps =
      (insertSortList (ps.map fun prov => ⟨prov, p.resolvedPriority prov⟩)).map (·.provider) := by
  simp [Provider.sortProvidersByPriority, insertionSortLoop_eq]

theorem perm_sortProvidersByPriority (p : Provider) (ps : List (ServiceProvider W)) :
    List.Perm (p.sortProvidersByPriority ps) ps := by
  have := (foldl_insertKey_perm []
    (ps.map fun prov => (⟨prov, p.resolvedPriority prov⟩ : ProviderWithPriority W))).map
      (·.provider)
  simpa [sortProvidersByPriority_eq_map, insertSortList, Function.comp_def] using this

theorem sorted_sortProvidersByPriority (p : Provider) (ps : List (ServiceProvider W)) :
    (p.sortProvidersByPriority ps).Sorted (fun a b => p.specPriority a ≤ p.specPriority b) := by
  rw [sortProvidersByPriority_eq_map, List.Sorted, List.pairwise_map]
  refine (sorted_foldl_insertKey [] _ List.sorted_nil).imp_of_mem fun ha hb h => ?_
  rwa [← priority_of_mem_insertSortList ha, ← priority_of_mem_insertSortList hb]

theorem filter_priority_sortProvidersByPriority (p : Provider) (ps : List (ServiceProvider W))
    (k : Int) :
    (p.sortProvidersByPriority ps).filter (fun a => p.specPriority a = k) =
      ps.filter (fun a => p.specPriority a = k) := by
  rw [sortProvidersByPriority_eq_map, List.filter_map,
    @List.filter_congr _ _ (fun e => decide (e.priority = k)) _
      (fun e he => by simp [Function.comp, priority_of_mem_insertSortList he])]
  simp only [insertSortList, filter_foldl_insertKey]
  simp [List.filter_map, Function.comp_def, Provider.resolvedPriority_eq]

theorem sortProvidersByPriority_eq_mergeSort (p : Provider) (ps : List (ServiceProvider W)) :
    p.sortProvidersByPriority ps =
      ps.mergeSort (fun a b => decide (p.specPriority a ≤ p.specPriority b)) :=
  eq_of_sorted_of_filter_eq ((perm_sortProvidersByPriority p ps).trans (List.mergeSort_perm ps _).symm)
    (sorted_sortProvidersByPriority p ps) (sorted_mergeSort_by ps)
    fun k => (filter_priority_sortProvidersByPriority p ps k).trans (filter_mergeSort ps k).symm

end Adele
