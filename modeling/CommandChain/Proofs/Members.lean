import CommandChain.Members
import Mathlib.Tactic.SplitIfs

/-!
# Reading after adding a member

`insert` is seen by a reader of its own name and by no other, and two insertions under different
names may be made in either order. Neither needs the members to be sorted. -/

namespace CommandChain.Members

universe u

variable {α : Type u} {k k' : String} {a b : α}

@[simp] theorem get?_insert_self (k : String) (a : α) (ms : Members α) :
    get? k (insert k a ms) = some a := by
  induction ms with
  | nil => simp [insert, get?]
  | cons m ms ih =>
    unfold insert
    split_ifs with h₁ h₂
    · simp [get?]
    · simp [get?]
    · have hne : ¬ m.1 = k := fun h => h₂ h.symm
      simp only [get?, if_neg hne]
      exact ih

/-- A name after all others is added at the end. -/
theorem insert_of_forall_lt {ms : Members α} (h : ∀ m ∈ ms, m.1 < k) (a : α) :
    insert k a ms = ms ++ [(k, a)] := by
  induction ms with
  | nil => rfl
  | cons m ms ih =>
    obtain ⟨hm, hms⟩ := List.forall_mem_cons.mp h
    have hne : ¬ k = m.1 := fun e => String.lt_irrefl k (e ▸ hm)
    rw [insert, if_neg (String.lt_asymm hm), if_neg hne, ih hms, List.cons_append]

theorem get?_insert_of_ne (h : k ≠ k') (a : α) (ms : Members α) :
    get? k (insert k' a ms) = get? k ms := by
  induction ms with
  | nil => simp [insert, get?, h.symm]
  | cons m ms ih =>
    unfold insert
    split_ifs with h₁ h₂
    · simp [get?, h.symm]
    · simp [get?, ← h₂, h.symm]
    · simp only [get?, ih]

theorem insert_insert (k : String) (a b : α) (ms : Members α) :
    insert k a (insert k b ms) = insert k a ms := by
  induction ms with
  | nil => simp [insert]
  | cons m ms ih =>
    obtain ⟨l, c⟩ := m
    simp only [insert]
    by_cases h₁ : k < l
    · simp [h₁, insert]
    · by_cases h₂ : k = l
      · simp [h₂, insert]
      · simp [h₁, h₂, insert, ih]

/-- Reading among the members that some names have. -/
theorem get?_filterMap (f : String → Option α) (names : List String) (k : String) :
    get? k (names.filterMap fun n => (f n).map fun a => (n, a)) =
      if k ∈ names then f k else none := by
  induction names with
  | nil => simp [get?]
  | cons n names ih =>
    by_cases hn : n = k
    · subst hn
      cases h : f n <;> simp_all [get?]
    · have hk : k ≠ n := Ne.symm hn
      cases h : f n <;> simp_all [get?]

theorem get?_overlay_of_forall_ne {ms upper : Members α} (h : ∀ m ∈ upper, k ≠ m.1) :
    get? k (ms.overlay upper) = get? k ms := by
  unfold overlay
  induction upper generalizing ms with
  | nil => rfl
  | cons m upper ih =>
    rw [List.foldl_cons, ih fun m' hm' => h m' (List.mem_cons_of_mem _ hm')]
    exact get?_insert_of_ne (h m List.mem_cons_self) m.2 ms

theorem mem_of_get? {ms : Members α} (h : get? k ms = some a) : (k, a) ∈ ms := by
  induction ms with
  | nil => cases h
  | cons m ms ih =>
    rw [get?] at h
    split_ifs at h with hk
    · cases h
      exact hk ▸ List.mem_cons_self
    · exact List.mem_cons_of_mem _ (ih h)

/-- Every name has the same member in both, in whatever order the members stand. -/
def Same (ms ms' : Members α) : Prop := ∀ k, get? k ms = get? k ms'

theorem Same.refl (ms : Members α) : Same ms ms := fun _ => rfl

/-! ### Changing the values -/

/-- The members with their values changed. -/
def mapValues {β : Type u} (f : α → β) (ms : Members α) : Members β := ms.map fun m => (m.1, f m.2)

section

variable {β : Type u} (f : α → β)

@[simp] theorem mapValues_nil : mapValues f [] = [] := rfl

@[simp] theorem mapValues_cons (m : String × α) (ms : Members α) :
    mapValues f (m :: ms) = (m.1, f m.2) :: mapValues f ms := rfl

@[simp] theorem length_mapValues (ms : Members α) : (ms.mapValues f).length = ms.length :=
  List.length_map _

theorem get?_mapValues (k : String) (ms : Members α) :
    get? k (ms.mapValues f) = (get? k ms).map f := by
  induction ms with
  | nil => rfl
  | cons m ms ih =>
    simp only [mapValues_cons, get?]
    split_ifs
    · rfl
    · exact ih

theorem mapValues_insert (k : String) (a : α) (ms : Members α) :
    (insert k a ms).mapValues f = insert k (f a) (ms.mapValues f) := by
  induction ms with
  | nil => rfl
  | cons m ms ih =>
    simp only [mapValues_cons, insert]
    split_ifs
    · rfl
    · rfl
    · rw [mapValues_cons, ih]

end

/-! ### The order of insertions -/

private theorem lt_or_lt_of_ne (h : k ≠ k') : k < k' ∨ k' < k := by
  by_cases hlt : k < k'
  · exact Or.inl hlt
  · refine Or.inr (Classical.byContradiction fun hn => h ?_)
    exact String.le_antisymm (String.not_lt.mp hn) (String.not_lt.mp hlt)

private theorem insert_comm_of_lt (h : k < k') (a b : α) (ms : Members α) :
    insert k a (insert k' b ms) = insert k' b (insert k a ms) := by
  have hnlt : ¬ k' < k := String.lt_asymm h
  have hne : k' ≠ k := fun e => String.lt_irrefl k (e ▸ h)
  induction ms with
  | nil => simp [insert, h, hne, hnlt]
  | cons m ms ih =>
    obtain ⟨l, c⟩ := m
    by_cases h₁ : k < l
    · -- `k` comes first, wherever `k'` goes
      have hk : insert k a ((l, c) :: ms) = (k, a) :: (l, c) :: ms := by
        simp only [insert, if_pos h₁]
      have hk' : insert k' b ((k, a) :: (l, c) :: ms) = (k, a) :: insert k' b ((l, c) :: ms) := by
        simp only [insert, if_neg hnlt, if_neg hne]
      rw [hk, hk']
      simp only [insert]
      split_ifs with h₂ h₃
      · simp only [insert, if_pos h]
      · simp only [insert, if_pos h]
      · simp only [insert, if_pos h₁]
    · by_cases h₂ : k = l
      · subst h₂
        simp only [insert, h₁, hnlt, hne, if_false, if_true]
      · have hl : l < k := (lt_or_lt_of_ne h₂).resolve_left h₁
        have hl' : l < k' := String.lt_trans hl h
        have hn : ¬ k' < l := String.lt_asymm hl'
        have hn' : k' ≠ l := fun e => String.lt_irrefl l (e ▸ hl')
        simp only [insert, h₁, h₂, hn, hn', if_false, ih]

/-- Insertions under different names may change places. -/
theorem insert_comm (h : k ≠ k') (a b : α) (ms : Members α) :
    insert k a (insert k' b ms) = insert k' b (insert k a ms) := by
  rcases lt_or_lt_of_ne h with hlt | hlt
  · exact insert_comm_of_lt hlt a b ms
  · exact (insert_comm_of_lt hlt b a ms).symm

/-! ### Sorted members -/

/-- What is among the members after an insertion was there before or was inserted. -/
theorem mem_insert {m : String × α} {ms : Members α} (h : m ∈ insert k a ms) :
    m = (k, a) ∨ m ∈ ms := by
  induction ms with
  | nil => exact .inl (List.mem_singleton.mp h)
  | cons n ms ih =>
    rw [insert] at h
    split_ifs at h
    · exact List.mem_cons.mp h
    · exact (List.mem_cons.mp h).imp_right (List.mem_cons_of_mem _)
    · rcases List.mem_cons.mp h with rfl | h
      · exact .inr List.mem_cons_self
      · exact (ih h).imp_right (List.mem_cons_of_mem _)

namespace Sorted

variable {ms : Members α}

theorem nodup (h : ms.Sorted) : (ms.map Prod.fst).Nodup := by
  rw [List.Nodup, List.pairwise_map]
  refine h.imp ?_
  intro m n hlt heq
  exact String.lt_irrefl _ (heq ▸ hlt)

theorem get?_of_mem (h : ms.Sorted) (ha : (k, a) ∈ ms) : get? k ms = some a := by
  induction ms with
  | nil => cases ha
  | cons m ms ih =>
    obtain ⟨hm, hms⟩ := List.pairwise_cons.mp h
    rcases List.mem_cons.mp ha with rfl | ha
    · exact if_pos rfl
    · have hne : m.1 ≠ k := fun e => String.lt_irrefl k (e ▸ hm (k, a) ha)
      rw [get?, if_neg hne, ih hms ha]

theorem insert (h : ms.Sorted) (k : String) (a : α) : (insert k a ms).Sorted := by
  induction ms with
  | nil => exact List.pairwise_singleton _ _
  | cons m ms ih =>
    obtain ⟨hm, hms⟩ := List.pairwise_cons.mp h
    rw [Members.insert]
    split_ifs with h₁ h₂
    · refine List.pairwise_cons.mpr ⟨fun n hn => ?_, h⟩
      rcases List.mem_cons.mp hn with rfl | hn
      · exact h₁
      · exact String.lt_trans h₁ (hm n hn)
    · exact List.pairwise_cons.mpr ⟨h₂ ▸ hm, hms⟩
    · refine List.pairwise_cons.mpr ⟨fun n hn => ?_, ih hms⟩
      rcases mem_insert hn with rfl | hn
      · exact (lt_or_lt_of_ne h₂).resolve_left h₁
      · exact hm n hn

theorem overlay (h : ms.Sorted) (upper : Members α) : (ms.overlay upper).Sorted := by
  unfold Members.overlay
  induction upper generalizing ms with
  | nil => exact h
  | cons m upper ih => exact ih (h.insert m.1 m.2)

theorem mapValues {β : Type u} (f : α → β) (h : ms.Sorted) : (ms.mapValues f).Sorted :=
  List.pairwise_map.mpr h

end Sorted

theorem mem_overlay {ms upper : Members α} {m : String × α} (h : m ∈ ms.overlay upper) :
    m ∈ ms ∨ m ∈ upper := by
  unfold overlay at h
  induction upper generalizing ms with
  | nil => exact .inl h
  | cons n upper ih =>
    rcases ih h with hm | hm
    · rcases mem_insert hm with rfl | hm
      · exact .inr List.mem_cons_self
      · exact .inl hm
    · exact .inr (List.mem_cons_of_mem _ hm)

theorem sorted_ofList (ms : List (String × α)) : (ofList ms).Sorted :=
  Sorted.overlay List.Pairwise.nil ms

/-- Members that stand in order are left as they are. -/
theorem ofList_of_sorted {ms : Members α} (h : ms.Sorted) : ofList ms = ms := by
  have hfold (front back : Members α) (hsorted : (front ++ back).Sorted) :
      back.foldl (fun acc m => insert m.1 m.2 acc) front = front ++ back := by
    induction back generalizing front with
    | nil => rw [List.foldl_nil, List.append_nil]
    | cons m back ih =>
      have hlt : ∀ m' ∈ front, m'.1 < m.1 := fun m' hm' =>
        (List.pairwise_append.mp hsorted).2.2 m' hm' m List.mem_cons_self
      have hnext : front ++ m :: back = front ++ [m] ++ back := by simp
      rw [List.foldl_cons, insert_of_forall_lt hlt, hnext]
      exact ih (front ++ [m]) (hnext ▸ hsorted)
  exact hfold [] ms h

theorem mem_of_mem_ofList {m : String × α} {ms : List (String × α)} (h : m ∈ ofList ms) : m ∈ ms :=
  (mem_overlay h).resolve_left List.not_mem_nil

end CommandChain.Members
