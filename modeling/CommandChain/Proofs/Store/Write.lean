import CommandChain.Condition
import CommandChain.Step.Kind
import CommandChain.Proofs.Members
import CommandChain.Proofs.Text.Split

/-!
# Writes and their readers

A write at a path is seen by the readers of its root and by no others, and it looks at nothing but
its root.

* `Store.set_comm`: writes at paths of which none leads on to the other may change places, although
  they make and replace the objects on their common way.
* `Store.AgreeOn.literal`, `Store.AgreeOn.holds`: tokens and conditions read nothing but the
  variables that they name.
* `Store.errorRaised_set_of_root`, `Store.raisedMessage?_set_of_root`: the error flag and its
  message are changed by writes to them only. -/

namespace CommandChain

/-! ### Members -/

namespace Members

variable {k k' : String} {path path' : List String} {v v' : Json} {ms ms' : Members Json}

theorem write_eq_insert (k : String) (path : List String) (v : Json) (ms : Members Json) :
    ∃ a, write k path v ms = insert k a ms ∧
      ∀ ms', get? k ms' = get? k ms → write k path v ms' = insert k a ms' := by
  cases path with
  | nil => exact ⟨v, rfl, fun _ _ => rfl⟩
  | cons l path => exact ⟨_, rfl, fun ms' h => by simp only [write, h]⟩

theorem get?_write_of_ne (h : k ≠ k') : get? k (write k' path v ms) = get? k ms := by
  obtain ⟨a, ha, -⟩ := write_eq_insert k' path v ms
  rw [ha, get?_insert_of_ne h]

theorem get?_write_congr (h : get? k ms' = get? k ms) :
    get? k (write k path v ms') = get? k (write k path v ms) := by
  obtain ⟨a, ha, hb⟩ := write_eq_insert k path v ms
  rw [ha, hb ms' h, get?_insert_self, get?_insert_self]

theorem write_comm_of_ne (h : k ≠ k') :
    write k path v (write k' path' v' ms) = write k' path' v' (write k path v ms) := by
  obtain ⟨a, ha, ha'⟩ := write_eq_insert k path v ms
  obtain ⟨b, hb, hb'⟩ := write_eq_insert k' path' v' ms
  rw [ha, hb, ha' _ (get?_insert_of_ne h b ms), hb' _ (get?_insert_of_ne h.symm a ms),
    insert_comm h]

/-- What was written is found at its path. -/
theorem descend?_write_self (k : String) (path : List String) (v : Json) (ms : Members Json) :
    (Json.obj (write k path v ms)).descend? (k :: path) = some v := by
  induction path generalizing k ms with
  | nil =>
    show (get? k (insert k v ms)).bind _ = _
    rw [get?_insert_self]
    rfl
  | cons l path ih =>
    show (get? k (insert k (.obj (write l path v _)) ms)).bind _ = _
    rw [get?_insert_self, Option.bind_some, ih]

/-- **Writes at paths of which none leads on to the other may change places.** -/
theorem write_comm (h : ¬ k :: path <+: k' :: path') (h' : ¬ k' :: path' <+: k :: path) :
    write k path v (write k' path' v' ms) = write k' path' v' (write k path v ms) := by
  induction path generalizing k k' path' ms with
  | nil =>
    by_cases hk : k = k'
    · exact absurd (by simp [hk]) h
    · exact write_comm_of_ne hk
  | cons l path ih =>
    by_cases hk : k = k'
    · subst hk
      cases path' with
      | nil => exact absurd (by simp) h'
      | cons l' path' =>
        -- both write into the object under `k`, where the paths still part
        rw [List.cons_prefix_cons] at h h'
        have hinner : ∀ inner : Members Json,
            write l path v (write l' path' v' inner) = write l' path' v' (write l path v inner) :=
          fun _ => ih (fun hp => h ⟨rfl, hp⟩) fun hp => h' ⟨rfl, hp⟩
        simp only [write, get?_insert_self, Option.map_some, Option.getD_some, Json.members,
          insert_insert, hinner]
    · exact write_comm_of_ne hk

end Members

namespace Store

/-! ### Writes -/

/-- None of two paths leads on to the other. -/
def Incomparable (p q : String) : Prop :=
  ¬ Text.fieldsText '.' p <+: Text.fieldsText '.' q ∧
    ¬ Text.fieldsText '.' q <+: Text.fieldsText '.' p

instance (p q : String) : Decidable (Incomparable p q) := inferInstanceAs (Decidable (_ ∧ _))

theorem Incomparable.symm {p q : String} (h : Incomparable p q) : Incomparable q p := ⟨h.2, h.1⟩

/-- Write values at paths, one after the other. -/
def setAll (s : Store) (ws : List (String × Json)) : Store :=
  ws.foldl (fun s w => s.set w.1 w.2) s

theorem setAll_append (s : Store) (ws ws' : List (String × Json)) :
    s.setAll (ws ++ ws') = (s.setAll ws).setAll ws' := List.foldl_append

theorem fieldsText_eq (path : String) :
    ∃ rest, Text.fieldsText '.' path = root path :: rest := by
  unfold root
  rcases h : Text.fieldsText '.' path with _ | ⟨k, rest⟩
  · exact absurd (List.map_eq_nil_iff.mp h) (Text.fields_ne_nil _ _)
  · exact ⟨rest, rfl⟩

theorem set_eq {path : String} {rest : List String}
    (h : Text.fieldsText '.' path = root path :: rest) (s : Store) (v : Json) :
    s.set path v = ⟨Members.write (root path) rest v.coerce s.vars⟩ := by
  unfold set
  rw [h]

variable {s s' : Store} {p q : String} {v w : Json}

/-- **What was stored is found** at its path. -/
theorem lookup_set_self (s : Store) (path : String) (v : Json) :
    (s.set path v).lookup path = some v.coerce := by
  obtain ⟨rest, h⟩ := fieldsText_eq path
  rw [set_eq h, lookup, h]
  exact Members.descend?_write_self (root path) rest v.coerce s.vars

/-- **Writes at incomparable paths may change places.** -/
theorem set_comm (h : Incomparable p q) : (s.set p v).set q w = (s.set q w).set p v := by
  obtain ⟨rest, hp⟩ := fieldsText_eq p
  obtain ⟨rest', hq⟩ := fieldsText_eq q
  unfold Incomparable at h
  rw [hp, hq] at h
  simp only [set_eq hp, set_eq hq, Members.write_comm h.2 h.1]

theorem setAll_set_comm {ws : List (String × Json)} (h : ∀ a ∈ ws, Incomparable a.1 p) :
    (s.set p v).setAll ws = (s.setAll ws).set p v := by
  induction ws generalizing s with
  | nil => rfl
  | cons a ws ih =>
    show ((s.set p v).set a.1 a.2).setAll ws = ((s.set a.1 a.2).setAll ws).set p v
    rw [← ih fun b hb => h b (List.mem_cons_of_mem _ hb), set_comm (h a List.mem_cons_self).symm]

theorem setAll_append_comm {ws ws' : List (String × Json)}
    (h : ∀ a ∈ ws, ∀ b ∈ ws', Incomparable a.1 b.1) :
    s.setAll (ws ++ ws') = s.setAll (ws' ++ ws) := by
  induction ws generalizing s with
  | nil => simp
  | cons a ws ih =>
    have hleft := ih (s := s.set a.1 a.2) fun b hb => h b (List.mem_cons_of_mem _ hb)
    have hright : (s.set a.1 a.2).setAll ws' = (s.setAll ws').set a.1 a.2 :=
      setAll_set_comm fun b hb => (h a List.mem_cons_self b hb).symm
    calc s.setAll (a :: ws ++ ws') = (s.set a.1 a.2).setAll (ws ++ ws') := rfl
      _ = ((s.set a.1 a.2).setAll ws').setAll ws := by rw [hleft, setAll_append]
      _ = s.setAll (ws' ++ a :: ws) := by rw [hright, setAll_append]; rfl

/-! ### Agreement -/

/-- Two stores have the same variables under some names. -/
def AgreeOn (names : List String) (s s' : Store) : Prop :=
  ∀ k ∈ names, Members.get? k s.vars = Members.get? k s'.vars

namespace AgreeOn

variable {names : List String}

theorem refl (names : List String) (s : Store) : AgreeOn names s s := fun _ _ => rfl

theorem symm (h : AgreeOn names s s') : AgreeOn names s' s := fun k hk => (h k hk).symm

theorem trans {s'' : Store} (h : AgreeOn names s s') (h' : AgreeOn names s' s'') :
    AgreeOn names s s'' := fun k hk => (h k hk).trans (h' k hk)

/-- Stores that agree do so after the same write. -/
theorem set (h : AgreeOn names s s') (p : String) (v : Json) :
    AgreeOn names (s.set p v) (s'.set p v) := by
  intro k hk
  obtain ⟨rest, hp⟩ := fieldsText_eq p
  rw [set_eq hp, set_eq hp]
  -- under the root both stores may change, but from the same value in the same way
  by_cases hroot : k = root p
  · subst hroot
    exact Members.get?_write_congr (h _ hk)
  · simp only [Members.get?_write_of_ne hroot, h k hk]

theorem setAll (h : AgreeOn names s s') (ws : List (String × Json)) :
    AgreeOn names (s.setAll ws) (s'.setAll ws) := by
  induction ws generalizing s s' with
  | nil => exact h
  | cons a ws ih => exact ih (h.set a.1 a.2)

theorem set_of_root (h : root p ∉ names) : AgreeOn names (s.set p v) s := by
  intro k hk
  obtain ⟨rest, hp⟩ := fieldsText_eq p
  rw [set_eq hp]
  exact Members.get?_write_of_ne fun e => h (e ▸ hk)

theorem setAll_of_root {ws : List (String × Json)} (h : ∀ a ∈ ws, root a.1 ∉ names) :
    AgreeOn names (s.setAll ws) s := by
  induction ws generalizing s with
  | nil => exact refl _ _
  | cons a ws ih =>
    have hrest : AgreeOn names ((s.set a.1 a.2).setAll ws) (s.set a.1 a.2) :=
      ih fun b hb => h b (List.mem_cons_of_mem _ hb)
    exact hrest.trans (set_of_root (h a List.mem_cons_self))

/-! ### Readers -/

theorem lookup (h : AgreeOn names s s') (hp : root p ∈ names) : s.lookup p = s'.lookup p := by
  obtain ⟨rest, hrest⟩ := fieldsText_eq p
  unfold Store.lookup
  rw [hrest]
  simp only [h _ hp]

/-- A token that is quoted is no variable; any other reads the variable of its root. -/
theorem literal {token : String} (h : AgreeOn names s s')
    (ht : Text.isQuoted token = false → root token ∈ names) :
    s.literal token = s'.literal token := by
  unfold Store.literal
  rcases hq : Text.unquote? token.toList with _ | inner
  · simp only [Store.get, h.lookup (ht (by simp [Text.isQuoted, hq]))]
  · rfl

theorem params {ins : List String} (h : AgreeOn names s s')
    (ht : ∀ token ∈ ins, Text.isQuoted token = false → root token ∈ names) :
    Step.params ins s = Step.params ins s' :=
  List.map_congr_left fun token htoken => h.literal (ht token htoken)

theorem holds {condition : String} (h : AgreeOn names s s')
    (hc : ∀ name ∈ Condition.mentioned condition, name ∈ names) :
    Condition.holds condition s = Condition.holds condition s' := by
  have hscope : Condition.scope condition s = Condition.scope condition s' := by
    unfold Condition.scope
    exact List.filterMap_congr fun name hname => by rw [h name (hc name hname)]
  unfold Condition.holds Condition.check
  rw [hscope]

theorem errorRaised (h : AgreeOn names s s') (hn : errorFlag ∈ names) :
    s.errorRaised = s'.errorRaised := by
  unfold Store.errorRaised
  rw [h.lookup (p := errorFlag) hn]

theorem raisedMessage? (h : AgreeOn names s s') (hn : errorMessage ∈ names) :
    s.raisedMessage? = s'.raisedMessage? := by
  unfold Store.raisedMessage?
  rw [h.lookup (p := errorMessage) hn]

end AgreeOn

/-! ### The error signal after a write -/

theorem errorRaised_set_of_root (h : root p ≠ errorFlag) :
    (s.set p v).errorRaised = s.errorRaised :=
  have hagree : AgreeOn [errorFlag] (s.set p v) s := .set_of_root (by simpa using h)
  hagree.errorRaised List.mem_cons_self

theorem raisedMessage?_set_of_root (h : root p ≠ errorMessage) :
    (s.set p v).raisedMessage? = s.raisedMessage? :=
  have hagree : AgreeOn [errorMessage] (s.set p v) s := .set_of_root (by simpa using h)
  hagree.raisedMessage? List.mem_cons_self

/-- The flag is up once it is stored. -/
theorem errorRaised_set_errorFlag : (s.set errorFlag (.bool true)).errorRaised = true := by
  unfold errorRaised
  rw [lookup_set_self]
  rfl

end Store

end CommandChain
