import CommandChain.Proofs.Store.Coerced

/-!
# Reading after a write

A read descends through objects and arrays, but a write through objects only: it puts an object in
place of anything else on its way. What a path names after a write at another path is therefore
settled by the segments that both begin with (`Store.lookup_set`). The path itself and the paths
behind it name what was written and its parts, and the paths before it name objects. Beyond the
common segments a path names what it did before, unless one of these segments named an array or a
scalar, of which nothing is left. -/

namespace CommandChain

/-! ### Descent -/

namespace Json

/-- The value is an object. -/
def IsObject (v : Json) : Prop := ∃ ms, v = .obj ms

@[simp] theorem isObject_obj (ms : Members Json) : (obj ms).IsObject := ⟨ms, rfl⟩

theorem descend?_append (v : Json) (path path' : List String) :
    v.descend? (path ++ path') = (v.descend? path).bind (·.descend? path') := by
  induction path generalizing v with
  | nil => rfl
  | cons k path ih => simp only [List.cons_append, descend?, Option.bind_assoc, ih]

theorem descend?_obj_cons (ms : Members Json) (k : String) (path : List String) :
    (obj ms).descend? (k :: path) = (Members.get? k ms).bind (·.descend? path) := rfl

theorem descend?_empty {path : List String} (h : path ≠ []) : (obj []).descend? path = none := by
  obtain ⟨k, path, rfl⟩ := List.exists_cons_of_ne_nil h
  rfl

/-- An object below a name, or nothing, is read through the members that a write would go on
with. -/
theorem descend?_inner {ms : Members Json} {k : String} {path : List String} (hpath : path ≠ [])
    (h : ∀ w ∈ Members.get? k ms, w.IsObject) :
    (obj (((Members.get? k ms).map members).getD [])).descend? path =
      (obj ms).descend? (k :: path) := by
  rw [descend?_obj_cons]
  rcases hk : Members.get? k ms with _ | w
  · exact descend?_empty hpath
  · obtain ⟨inner, rfl⟩ := h w hk
    rfl

end Json

/-! ### Members at a path -/

namespace Members

open Json

variable {a b k : String} {c path path' : List String} {v : Json} {ms : Members Json}

/-- Members with a value written at a path. -/
def assign : List String → Json → Members Json → Members Json
  | [], _, ms => ms
  | k :: path, v, ms => write k path v ms

theorem assign_cons (k : String) (h : path ≠ []) (v : Json) (ms : Members Json) :
    assign (k :: path) v ms =
      insert k (.obj (assign path v (((get? k ms).map members).getD []))) ms := by
  obtain ⟨l, path, rfl⟩ := List.exists_cons_of_ne_nil h
  rfl

theorem descend?_assign_cons (k : String) (h : path ≠ []) (path' : List String) :
    (obj (assign (k :: path) v ms)).descend? (k :: path') =
      (obj (assign path v (((get? k ms).map members).getD []))).descend? path' := by
  rw [assign_cons k h, descend?_obj_cons, get?_insert_self, Option.bind_some]

theorem descend?_assign_self (h : path ≠ []) : (obj (assign path v ms)).descend? path = some v := by
  obtain ⟨k, path, rfl⟩ := List.exists_cons_of_ne_nil h
  exact descend?_write_self k path v ms

theorem isObject_of_before :
    ∃ w, (obj (assign (path ++ a :: path') v ms)).descend? path = some w ∧ w.IsObject := by
  induction path generalizing ms with
  | nil => exact ⟨_, rfl, isObject_obj _⟩
  | cons k path ih =>
    rw [List.cons_append, descend?_assign_cons k (by simp)]
    exact ih

/-- A path that parts from a written one names what it did before, if the segments of both named
objects or nothing. -/
theorem descend?_assign_of_objects (hab : a ≠ b)
    (h : ∀ l, l ≠ [] → l <+: c → ∀ w ∈ (obj ms).descend? l, w.IsObject) :
    (obj (assign (c ++ a :: path) v ms)).descend? (c ++ b :: path') =
      (obj ms).descend? (c ++ b :: path') := by
  induction c generalizing ms with
  | nil =>
    show (get? b (write a path v ms)).bind _ = _
    rw [get?_write_of_ne hab.symm]
    rfl
  | cons k c ih =>
    have hk : ∀ w ∈ get? k ms, w.IsObject := by
      intro w hw
      refine h [k] (List.cons_ne_nil _ _) (by simp) w ?_
      show (get? k ms).bind _ = _
      rw [Option.mem_def.mp hw]
      rfl
    rw [List.cons_append, List.cons_append, descend?_assign_cons k (by simp),
      ← descend?_inner (by simp) hk]
    refine ih fun l hl hlc w hw => h (k :: l) (List.cons_ne_nil _ _) ?_ w ?_
    · exact (List.prefix_cons_inj k).mpr hlc
    · rwa [← descend?_inner hl hk]

/-- A path that parts from a written one names nothing if one of the segments of both named an array
or a scalar. -/
theorem descend?_assign_of_not_object (hab : a ≠ b) {l : List String} {w : Json} (hlc : l <+: c)
    (hw : (obj ms).descend? l = some w) (hobj : ¬ w.IsObject) :
    (obj (assign (c ++ a :: path) v ms)).descend? (c ++ b :: path') = none := by
  induction c generalizing ms l with
  | nil =>
    rw [List.prefix_nil.mp hlc] at hw
    cases hw
    exact absurd (isObject_obj ms) hobj
  | cons k c ih =>
    rcases l with _ | ⟨k', l⟩
    · cases hw
      exact absurd (isObject_obj ms) hobj
    · obtain ⟨rfl, hlc'⟩ := List.cons_prefix_cons.mp hlc
      rw [List.cons_append, List.cons_append, descend?_assign_cons k' (by simp)]
      obtain ⟨u, hu, hw⟩ := Option.bind_eq_some_iff.mp (descend?_obj_cons ms k' l ▸ hw)
      rw [hu, Option.map_some, Option.getD_some]
      cases u with
      | obj inner => exact ih hlc' hw
      | null | bool | num | str | arr =>
        -- the value under the first segment gives place to a new object
        show (obj (assign _ v [])).descend? _ = none
        rw [descend?_assign_of_objects hab fun l hl _ w hw => by
          rw [descend?_empty hl] at hw; cases hw]
        exact descend?_empty (by simp)

end Members

/-! ### Paths of the store -/

namespace Store

/-- The segments of a path. -/
def segments (path : String) : List String := Text.fieldsText '.' path

theorem segments_ne_nil (path : String) : segments path ≠ [] := by
  obtain ⟨rest, h⟩ := fieldsText_eq path
  unfold segments
  rw [h]
  exact List.cons_ne_nil _ _

theorem lookup_eq (s : Store) (path : String) :
    s.lookup path = (Json.obj s.vars).descend? (segments path) := by
  unfold lookup segments
  obtain ⟨rest, h⟩ := fieldsText_eq path
  rw [h]
  rfl

theorem vars_set (s : Store) (path : String) (v : Json) :
    (s.set path v).vars = Members.assign (segments path) v.coerce s.vars := by
  obtain ⟨rest, h⟩ := fieldsText_eq path
  rw [set_eq h]
  unfold segments
  rw [h]
  rfl

theorem exists_segments_eq {path : String} {c l : List String} (hl : l ≠ []) (hlc : l <+: c)
    (hc : c <+: segments path) : ∃ x, segments x = l :=
  Text.exists_fieldsText_eq hl (hlc.trans hc)

/-- **Reading after a write.** After a value was written at the path `p`, a path that is `p` or
leads on from it names the part of the stored value to which it leads on, and a path that leads to
`p` names an object. Let the path `q` part from `p` after the segments `c`. If all that `c` and its
first segments named were objects, `q` names what it did before; if one of them named an array or a
scalar, `q` names nothing. -/
theorem lookup_set (s : Store) (p q : String) (v : Json) :
    (∀ r, segments q = segments p ++ r → (s.set p v).lookup q = v.coerce.descend? r) ∧
    (∀ a r, segments p = segments q ++ a :: r →
      ∃ w, (s.set p v).lookup q = some w ∧ w.IsObject) ∧
    ∀ c a b p' q', segments p = c ++ a :: p' → segments q = c ++ b :: q' → a ≠ b →
      ((∀ x w, segments x <+: c → s.lookup x = some w → w.IsObject) →
        (s.set p v).lookup q = s.lookup q) ∧
      ∀ x w, segments x <+: c → s.lookup x = some w → ¬ w.IsObject →
        (s.set p v).lookup q = none := by
  simp only [lookup_eq, vars_set]
  refine ⟨fun r hq => ?_, fun a r hp => ?_, fun c a b p' q' hp hq hab => ⟨fun h => ?_, ?_⟩⟩
  · rw [hq, Json.descend?_append, Members.descend?_assign_self (segments_ne_nil p),
      Option.bind_some]
  · rw [hp]
    exact Members.isObject_of_before
  · rw [hp, hq]
    refine Members.descend?_assign_of_objects hab fun l hl hlc w hw => ?_
    obtain ⟨x, rfl⟩ := exists_segments_eq hl hlc (hp ▸ List.prefix_append c _)
    exact h x w hlc hw
  · intro x w hx hw hobj
    rw [hp, hq]
    exact Members.descend?_assign_of_not_object hab hx hw hobj

/-- A list beside another variable, both inside of `a`. -/
def listInside : Store :=
  ⟨[("a", .obj [("l", .arr [.null, .bool false]), ("x", .bool true)])]⟩

/-- A write at the path of an item takes the other items away and leaves the variable beside the
list. -/
theorem listInside_replaced :
    (listInside.set "a.l.0" (.str " [true]")).lookup "a.l.0.0" = some (.bool true) ∧
      (∃ w, (listInside.set "a.l.0" (.str " [true]")).lookup "a.l" = some w ∧ w.IsObject) ∧
      (listInside.set "a.l.0" (.str " [true]")).lookup "a.x" = listInside.lookup "a.x" ∧
      listInside.lookup "a.l.1" = some (.bool false) ∧
      (listInside.set "a.l.0" (.str " [true]")).lookup "a.l.1" = none := by
  have hp : segments "a.l.0" = ["a", "l", "0"] := by decide
  have hbehind : segments "a.l.0.0" = ["a", "l", "0"] ++ ["0"] := by decide
  have hbefore : segments "a.l" = ["a", "l"] := by decide
  have hx : segments "a.x" = ["a", "x"] := by decide
  have hitem : segments "a.l.1" = ["a", "l", "1"] := by decide
  have hlist : listInside.lookup "a.l" = some (.arr [.null, .bool false]) := rfl
  have hstored : (Json.arr [.bool true]).Stored :=
    ⟨.arr fun v hv => List.eq_of_mem_singleton hv ▸ .bool true, by decide⟩
  have hblank : ∀ c ∈ [' '], Text.isBlank c = true := List.forall_mem_singleton.mpr rfl
  have hcoerce : (Json.str " [true]").coerce = .arr [.bool true] := by
    have h := hstored.coerce_text (by simp [Json.numbers, Json.numbersOfItems]) hblank
      (List.forall_mem_nil _)
    exact h
  have hvalue : (Json.str " [true]").coerce.descend? ["0"] = some (.bool true) := by
    rw [hcoerce]
    rfl
  refine ⟨?_, ?_, ?_, rfl, ?_⟩
  · rw [← hp] at hbehind
    rw [(lookup_set listInside "a.l.0" "a.l.0.0" _).1 ["0"] hbehind, hvalue]
  · exact (lookup_set listInside "a.l.0" "a.l" _).2.1 "0" [] (by rw [hp, hbefore]; rfl)
  · obtain ⟨hkept, -⟩ :=
      (lookup_set listInside "a.l.0" "a.x" (.str " [true]")).2.2 ["a"] "l" "x" ["0"] []
        hp hx (by decide)
    refine hkept fun x w hseg hw => ?_
    -- the only path before both is `a`, which names an object
    have hone : segments x = ["a"] := by
      obtain ⟨k, rest, hcons⟩ := List.exists_cons_of_ne_nil (segments_ne_nil x)
      rw [hcons] at hseg ⊢
      obtain ⟨rfl, hrest⟩ := List.cons_prefix_cons.mp hseg
      rw [List.prefix_nil.mp hrest]
    rw [lookup_eq, hone] at hw
    cases hw
    exact Json.isObject_obj _
  · obtain ⟨-, hgone⟩ :=
      (lookup_set listInside "a.l.0" "a.l.1" (.str " [true]")).2.2 ["a", "l"] "0" "1"
        [] [] hp hitem (by decide)
    refine hgone "a.l" _ (hbefore ▸ List.prefix_rfl) hlist ?_
    rintro ⟨ms, h⟩
    cases h

end Store

end CommandChain
