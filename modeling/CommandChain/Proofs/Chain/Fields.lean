import CommandChain.Chain.Normal
import CommandChain.Proofs.Members
import CommandChain.Proofs.Text.Split

/-!
# What is read from an object

The fields of an object are looked up by their names, so that only the members count and not their
order (`Draft.ofMembers_congr`). Input tokens and the path of the result that were read once are
read as they are when they are written down again (`tokens_arr`, `outPath_str`).

A definition that is an object gives the node of its fields, a group of its children, or one of the
two under a handler (`Node.ofJson_obj_cases`). -/

namespace CommandChain

variable {t : List Char} {d : Draft} {ms ms' : Members Json} {n : Node}

/-! ### One result after another -/

section Except

variable {ε α β : Type} {x : Except ε α} {e : ε} {b : β}

theorem bind_eq_ok_iff {f : α → Except ε β} :
    x.bind f = .ok b ↔ ∃ a, x = .ok a ∧ f a = .ok b := by
  cases x <;> simp [Except.bind]

theorem bind_eq_error_iff {f : α → Except ε β} :
    x.bind f = .error e ↔ x = .error e ∨ ∃ a, x = .ok a ∧ f a = .error e := by
  cases x <;> simp [Except.bind]

theorem map_eq_ok_iff {f : α → β} : x.map f = .ok b ↔ ∃ a, x = .ok a ∧ f a = b := by
  cases x <;> simp [Except.map]

theorem map_eq_error_iff {f : α → β} : x.map f = .error e ↔ x = .error e := by
  cases x <;> simp [Except.map]

end Except

namespace Draft

/-! ### Input tokens and paths -/

theorem trimmed_token (v : Json) : Text.trimmed (token v) = token v := by
  have hquoted : ∀ u : String, Text.trimmed ("'" ++ u ++ "'") = "'" ++ u ++ "'" := by
    intro u
    have hends : Text.IsTrimmed ("'" ++ u ++ "'").toList := by
      constructor
      · intro c hc
        have hfirst : some '\'' = some c := by simpa using hc
        cases hfirst
        decide
      · intro c hc
        have hlast : some '\'' = some c := by
          rw [String.toList_append, List.getLast?_append] at hc
          simpa using hc
        cases hlast
        decide
    unfold Text.trimmed
    rw [Text.trim_eq_self hends, String.ofList_toList]
  cases v with
  | str s => exact Text.trimmed_trimmed s
  | null => exact hquoted _
  | bool b => exact hquoted _
  | num n => exact hquoted _
  | arr items => exact hquoted _
  | obj ms => exact hquoted _

theorem trimmed_of_mem_splitIns {u : String} (h : u ∈ splitIns t) : Text.trimmed u = u := by
  unfold splitIns at h
  obtain ⟨p, hp, rfl⟩ := List.mem_map.mp h
  obtain ⟨q, -, rfl⟩ := List.mem_map.mp (List.mem_filter.mp hp).1
  unfold Text.trimmed
  rw [String.toList_ofList, Text.trim_trim]

theorem trimmed_of_mem_tokens {v : Option Json} {u : String} (h : u ∈ tokens v) :
    Text.trimmed u = u := by
  unfold tokens at h
  split at h
  · simp at h
  · simp at h
  · exact trimmed_of_mem_splitIns h
  · obtain ⟨w, -, rfl⟩ := List.mem_map.mp h
    exact trimmed_token w
  · rw [List.mem_singleton] at h
    rw [h]
    exact trimmed_token _

/-- Trimmed tokens, written as a list, are read as they are. -/
theorem tokens_arr {ts : List String} (h : ∀ t ∈ ts, Text.trimmed t = t) :
    tokens (some (.arr (ts.map .str))) = ts := by
  show (ts.map Json.str).map token = ts
  rw [List.map_map]
  calc ts.map (token ∘ Json.str) = ts.map id := List.map_congr_left h
    _ = ts := List.map_id _

/-- A path that is not empty is read as it is. -/
theorem outPath_str {t : String} (h : t ≠ "") : outPath (some (.str t)) = t := by
  unfold outPath
  split
  · next hnone => cases hnone
  · next hempty => exact absurd (Option.some.inj hempty) h
  · next hsome => exact (Option.some.inj hsome).symm

/-! ### Members and fields -/

theorem command_withArrow {c : Json} (h : d.command = some c) :
    d.withArrow.command = some (.str (Arrow.ofChars c.plainText.toList).commandText) := by
  simp [withArrow, h]

theorem pick_congr {ms ms' : Members Json} {names : List String}
    (h : ∀ name ∈ names, Members.get? name ms' = Members.get? name ms) :
    pick ms' names = pick ms names := by
  induction names with
  | nil => rfl
  | cons name names ih =>
    unfold pick
    rw [ih fun n hn => h n (List.mem_cons_of_mem _ hn), h name List.mem_cons_self]

theorem chains_congr (h : ms.Same ms') : chains ms = chains ms' := pick_congr fun name _ => h name

theorem ofMembers_congr (h : ms.Same ms') : ofMembers ms = ofMembers ms' := by
  have hpick : ∀ names, pick ms names = pick ms' names := fun _ => pick_congr fun name _ => h name
  unfold ofMembers modeField Members.contains
  simp only [hpick, h _]

end Draft

namespace Node

/-! ### Lists of definitions -/

theorem ofItems_cons (v : Json) (vs : List Json) :
    ofItems (v :: vs) = (ofJson v).bind fun n => (ofItems vs).map (n :: ·) := by
  rw [ofItems]
  cases ofJson v <;> cases ofItems vs <;> rfl

theorem ofItems_cons_eq_ok_iff {v : Json} {vs : List Json} {ns : List Node} :
    ofItems (v :: vs) = .ok ns ↔
      ∃ n ns', ofJson v = .ok n ∧ ofItems vs = .ok ns' ∧ n :: ns' = ns := by
  simp [ofItems_cons, bind_eq_ok_iff, map_eq_ok_iff]

/-- Some definitions give some nodes just if each of them gives the one at its place. -/
theorem ofItems_eq_ok_iff {vs : List Json} {ns : List Node} :
    ofItems vs = .ok ns ↔ vs.map ofJson = ns.map .ok := by
  induction vs generalizing ns with
  | nil => cases ns <;> simp [ofItems]
  | cons v vs ih =>
    simp only [ofItems_cons_eq_ok_iff, ih, List.map_cons]
    constructor
    · rintro ⟨n, ns', hn, hns, rfl⟩
      rw [hn, hns, List.map_cons]
    · intro h
      obtain ⟨n, ns', rfl, hn, hns⟩ := List.map_eq_cons_iff.mp h.symm
      exact ⟨n, ns', hn.symm, hns.symm, rfl⟩

/-- The actions of an error block. -/
def actionItems (ms : Members Json) : List Json :=
  ((Members.get? "error_actions" ms).map Json.toList).getD []

theorem ofActions_eq (ms : Members Json) : ofActions ms = ofItems (actionItems ms) := by
  unfold ofActions actionItems
  split
  · next h => rw [h]; rfl
  · next h => rw [h]; unfold ofItems; rfl

/-! ### Nodes -/

theorem ofJson_of_fields (hchains : Draft.chains ms = none)
    (herror : Members.get? "error" ms = none) :
    ofJson (.obj ms) = .ok (Draft.ofMembers ms).withArrow.node := by
  unfold ofJson
  split
  · simp_all
  · simp_all
  · simp_all
  · rfl

theorem ofJson_of_chains {items : Json} (hchains : Draft.chains ms = some items)
    (herror : Members.get? "error" ms = none) :
    ofJson (.obj ms) = (ofItems items.toList).map (.group (Draft.ofMembers ms).withArrow.info) := by
  unfold ofJson
  split
  · simp_all
  · simp_all
  · next items' _ hitems =>
    obtain rfl : items' = items := by simpa [hitems] using hchains
    cases ofItems items'.toList <;> rfl
  · simp_all

/-- **The nodes of an object**: that of its fields, a group of its children, or one of the two that
is watched by a handler. -/
theorem ofJson_obj_cases (h : ofJson (.obj ms) = .ok n) :
    n = (Draft.ofMembers ms).withArrow.node ∨
    (∃ items body, Draft.chains ms = some items ∧ ofItems items.toList = .ok body ∧
      n = .group (Draft.ofMembers ms).withArrow.info body) ∨
    ∃ error body actions, ofActions ms = .ok actions ∧
      (body = (Draft.ofMembers ms).withArrow.watched ∨
        ∃ items children, Draft.chains ms = some items ∧ ofItems items.toList = .ok children ∧
          body = .group { mode := (Draft.ofMembers ms).withArrow.info.mode } children) ∧
      n = guarded (Draft.ofMembers ms).withArrow.info body
        (handler error (Members.get? "error_message" ms) actions) := by
  unfold ofJson at h
  dsimp only at h
  split at h
  · next error items _ hitems =>
    obtain ⟨body, hbody, hrest⟩ := bind_eq_ok_iff.mp h
    obtain ⟨actions, hactions, hn⟩ := bind_eq_ok_iff.mp hrest
    exact .inr (.inr ⟨error, _, actions, hactions, .inr ⟨items, body, hitems, hbody, rfl⟩,
      (Except.ok.inj hn).symm⟩)
  · next error _ _ =>
    split at h
    · obtain ⟨actions, hactions, hn⟩ := bind_eq_ok_iff.mp h
      exact .inr (.inr ⟨error, _, actions, hactions, .inl rfl, (Except.ok.inj hn).symm⟩)
    · exact .inl (Except.ok.inj h).symm
  · next items _ hitems =>
    obtain ⟨body, hbody, hn⟩ := bind_eq_ok_iff.mp h
    exact .inr (.inl ⟨items, body, hitems, hbody, (Except.ok.inj hn).symm⟩)
  · exact .inl (Except.ok.inj h).symm

end Node

end CommandChain
