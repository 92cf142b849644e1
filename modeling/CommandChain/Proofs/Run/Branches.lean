import CommandChain.Proofs.Run.Compose
import Mathlib.Data.List.Perm.Basic

/-!
# Nodes side by side

Each act of a run of nodes side by side that do not touch each other's data is one that its node
could have made alone, since it looks at nothing that the others write. So the run is made of one
run of each node alone (`Run.branches`), and what they write may be put in any order (`Makes.perm`).
A run of the nodes one after the other is made of the same runs (`of_ends_series`). -/

namespace CommandChain

variable {answers : String → List Json → Answer} {s s' S S' : Store} {τ : List Mark}
  {o o' : Except RunError Unit} {w k k' : Nat} {n : Node} {ns ns' : List Node}

/-- The node alone, from its guard on, comes to an end with the outcome `o` in the store `S`. -/
def Node.Alone (answers : String → List Json → Answer) (n : Node) (s : Store)
    (o : Except RunError Unit) (S : Store) : Prop :=
  ∃ k, Task.Ends answers k 0 (.guard n) s o S

/-- All runs of the node alone agree. -/
def Node.Settles (answers : String → List Json → Answer) (n : Node) (s : Store) : Prop :=
  Task.Settles answers 0 (.guard n) s

/-! ### Writes in any order -/

/-- Two lists of writes at paths of which none leads on to another of the other list. -/
def WritesApart (W W' : List (String × Json)) : Prop :=
  ∀ a ∈ W, ∀ b ∈ W', Store.Incomparable a.1 b.1

theorem WritesApart.symm {W W' : List (String × Json)} (h : WritesApart W W') : WritesApart W' W :=
  fun b hb a ha => (h a ha b hb).symm

theorem writesApart_flatten {W : List (String × Json)} {Ws : List (List (String × Json))}
    (h : ∀ W' ∈ Ws, WritesApart W W') : WritesApart W Ws.flatten := by
  intro a ha b hb
  obtain ⟨W', hW', hb⟩ := List.mem_flatten.mp hb
  exact h W' hW' a ha b hb

/-- **Lists of writes that do not touch may be put in any order.** -/
theorem Store.setAll_flatten_perm {Ws Ws' : List (List (String × Json))} (hp : Ws.Perm Ws')
    (h : Ws.Pairwise WritesApart) : s.setAll Ws.flatten = s.setAll Ws'.flatten := by
  induction hp generalizing s with
  | nil => rfl
  | cons W _ ih =>
    rw [List.flatten_cons, List.flatten_cons, setAll_append, setAll_append,
      ih (List.pairwise_cons.mp h).2]
  | swap W W' Ws =>
    have hWW' : WritesApart W' W := (List.pairwise_cons.mp h).1 W List.mem_cons_self
    simp only [List.flatten_cons, ← List.append_assoc]
    rw [setAll_append, setAll_append_comm hWW', ← setAll_append]
  | trans hp₁ _ ih₁ ih₂ =>
    exact (ih₁ h).trans (ih₂ (hp₁.pairwise h WritesApart.symm))

/-! ### One node after the other -/

/-- The node alone ends in the store `s` without failing, and writes `W`. -/
def Node.Makes (answers : String → List Json → Answer) (s : Store) (n : Node)
    (W : List (String × Json)) : Prop :=
  ∃ τ S, Obeys answers τ ∧ Run 0 (.guard n) s τ (.ok .done) S ∧ writes τ = W

namespace Node.Makes

variable {W W' : List (String × Json)} {Ws Ws' : List (List (String × Json))}

theorem mem_outs (h : n.Makes answers s W) : ∀ a ∈ W, a.1 ∈ n.outs := by
  obtain ⟨τ, S, -, hrun, rfl⟩ := h
  exact hrun.writes_mem_outs

theorem alone (h : n.Makes answers s W) : n.Alone answers s (.ok ()) (s.setAll W) := by
  obtain ⟨τ, S, hobeys, hrun, rfl⟩ := h
  rw [← hrun.store_eq]
  exact ⟨_, τ, rfl, hobeys, hrun⟩

theorem of_alone (h : n.Alone answers s (.ok ()) S) :
    ∃ W, n.Makes answers s W ∧ S = s.setAll W := by
  obtain ⟨k, τ, -, hobeys, hrun⟩ := h
  exact ⟨writes τ, ⟨τ, S, hobeys, hrun, rfl⟩, hrun.store_eq⟩

theorem writesApart {n' : Node} (h : n.Makes answers s W) (h' : n'.Makes answers s W')
    (ha : n.Apart n') : WritesApart W W' :=
  fun a haW b hbW => ha.outs _ (h.mem_outs a haW) _ (h'.mem_outs b hbW)

theorem writesApart_of_forall (h : n.Makes answers s W) (hs : List.Forall₂ (Makes answers s) ns Ws)
    (ha : ∀ n' ∈ ns, n.Apart n') : ∀ W' ∈ Ws, WritesApart W W' := by
  induction hs with
  | nil => simp
  | @cons n' W' ns Ws h' _ ih =>
    intro V hV
    rcases List.mem_cons.mp hV with rfl | hV
    · exact h.writesApart h' (ha n' List.mem_cons_self)
    · exact ih (fun m hm => ha m (List.mem_cons_of_mem _ hm)) V hV

theorem pairwise (hs : List.Forall₂ (Makes answers s) ns Ws) (ha : ns.Pairwise Apart) :
    Ws.Pairwise WritesApart := by
  induction hs with
  | nil => exact List.Pairwise.nil
  | cons h hs ih =>
    obtain ⟨hn, hns⟩ := List.pairwise_cons.mp ha
    exact List.pairwise_cons.mpr ⟨h.writesApart_of_forall hs hn, ih hns⟩

/-- **What nodes make is the same in every order.** -/
theorem perm (hs : List.Forall₂ (Makes answers s) ns Ws) (ha : ns.Pairwise Apart)
    (hp : ns'.Perm ns) :
    ∃ Ws', List.Forall₂ (Makes answers s) ns' Ws' ∧ s.setAll Ws'.flatten = s.setAll Ws.flatten := by
  obtain ⟨Ws', hs', hW⟩ := List.perm_comp_forall₂ hp hs
  exact ⟨Ws', hs', (Store.setAll_flatten_perm hW.symm (pairwise hs ha)).symm⟩

/-- **Nodes that settle make the same store.** -/
theorem unique (hs : List.Forall₂ (Makes answers s) ns Ws)
    (hs' : List.Forall₂ (Makes answers s) ns Ws')
    (ha : ns.Pairwise Apart) (hsettles : ∀ n ∈ ns, n.Settles answers s) :
    s.setAll Ws.flatten = s.setAll Ws'.flatten := by
  induction hs generalizing Ws' with
  | nil =>
    cases hs'
    rfl
  | @cons n W ns Ws h hs ih =>
    cases hs' with
    | @cons _ W' _ Ws' h' hs' =>
      obtain ⟨hn, hns⟩ := List.pairwise_cons.mp ha
      obtain ⟨k, hk⟩ := h.alone
      obtain ⟨k', hk'⟩ := h'.alone
      have hW : s.setAll W = s.setAll W' :=
        (hsettles n List.mem_cons_self _ _ _ _ _ _ hk hk').2 rfl
      have hrest := ih hs' hns fun m hm => hsettles m (List.mem_cons_of_mem _ hm)
      -- the writes of the first node go behind the others, which then agree by induction
      calc s.setAll (W :: Ws).flatten = s.setAll (W' ++ Ws.flatten) := by
            rw [List.flatten_cons, Store.setAll_append, hW, Store.setAll_append]
        _ = (s.setAll Ws.flatten).setAll W' := by
            rw [Store.setAll_append_comm (writesApart_flatten (h'.writesApart_of_forall hs hn)),
              Store.setAll_append]
        _ = (s.setAll Ws'.flatten).setAll W' := by rw [hrest]
        _ = s.setAll (W' :: Ws').flatten := by
            rw [List.flatten_cons,
              Store.setAll_append_comm (writesApart_flatten (h'.writesApart_of_forall hs' hn)),
              Store.setAll_append]

theorem agree {n' : Node} (h : n.Makes answers s W) (ha : n.Apart n')
    (he : n.SparesErrors) (s' : Store) : Store.AgreeOn n'.view (s'.setAll W) s' :=
  Store.AgreeOn.setAll_of_root fun a haW => ha.root_not_mem_view he (h.mem_outs a haW)

end Node.Makes

/-! ### A series of nodes that do not touch -/

theorem Node.Alone.transport {e : RunError} (h : n.Alone answers s (.error e) S)
    (hs : Store.AgreeOn n.view s s') : ∃ S', n.Alone answers s' (.error e) S' := by
  obtain ⟨k, τ, -, hobeys, hrun⟩ := h
  obtain ⟨τ', S', hrun', hreplies⟩ := hrun.transport hs
  refine ⟨S', _, τ', rfl, ?_, hrun'⟩
  unfold Obeys
  rw [hreplies]
  exact hobeys

theorem Node.Makes.transport {W : List (String × Json)} (h : n.Makes answers s W)
    (hs : Store.AgreeOn n.view s s') : n.Makes answers s' W := by
  obtain ⟨τ, S, hobeys, hrun, rfl⟩ := h
  obtain ⟨τ', S', hrun', hreplies⟩ := hrun.transport hs
  refine ⟨τ', S', ?_, hrun', ?_⟩
  · unfold Obeys
    rw [hreplies]
    exact hobeys
  · rw [writes_eq_of_replies, hreplies, ← writes_eq_of_replies]

theorem Node.Makes.agree_rest {W : List (String × Json)} (h : n.Makes answers s W)
    (hn : ∀ n' ∈ ns, n.Apart n') (he : n.SparesErrors)
    (hs : ∀ n' ∈ n :: ns, Store.AgreeOn n'.view s s') :
    ∀ n' ∈ ns, Store.AgreeOn n'.view s (s'.setAll W) := fun n' hn' =>
  (hs n' (List.mem_cons_of_mem _ hn')).trans (h.agree (hn n' hn') he s').symm

/-- **One after the other** the nodes make what each of them makes alone. -/
theorem ends_series {Ws : List (List (String × Json))}
    (hW : List.Forall₂ (Node.Makes answers s) ns Ws)
    (ha : ns.Pairwise Node.Apart) (he : ∀ n ∈ ns, n.SparesErrors) (w : Nat)
    (hs : ∀ n ∈ ns, Store.AgreeOn n.view s s') :
    ∃ k, Task.Ends answers k w (Task.andThen .done ns) s' (.ok ()) (s'.setAll Ws.flatten) := by
  induction hW generalizing s' with
  | nil => exact ⟨0, [], rfl, obeys_nil, .start⟩
  | @cons n W ns Ws h _ ih =>
    obtain ⟨hn, hns⟩ := List.pairwise_cons.mp ha
    have hen := he n List.mem_cons_self
    obtain ⟨k, hk⟩ := (h.transport (hs n List.mem_cons_self)).alone
    obtain ⟨k', hk'⟩ := ih hns (fun m hm => he m (List.mem_cons_of_mem _ hm))
      (h.agree_rest hn hen hs)
    rw [List.flatten_cons, Store.setAll_append]
    exact hk.series hk'

/-- One after the other the nodes fail only if one of them does so alone, and end in no other store
than what they make alone. -/
theorem of_ends_series (ha : ns.Pairwise Node.Apart) (he : ∀ n ∈ ns, n.SparesErrors)
    (hs : ∀ n ∈ ns, Store.AgreeOn n.view s s')
    (h : Task.Ends answers k w (Task.andThen .done ns) s' o S) :
    (∃ n ∈ ns, ∃ e S', n.Alone answers s (.error e) S') ∨
      o = .ok () ∧ ∃ Ws, List.Forall₂ (Node.Makes answers s) ns Ws ∧ S = s'.setAll Ws.flatten := by
  induction ns generalizing s' k with
  | nil =>
    obtain ⟨rfl, rfl⟩ := Task.Ends.of_done h
    exact .inr ⟨rfl, [], .nil, rfl⟩
  | cons n ns ih =>
    obtain ⟨hn, hns⟩ := List.pairwise_cons.mp ha
    have hsn := hs n List.mem_cons_self
    -- the first node has run from `s'`; it does the same from `s`
    rcases h.of_series with ⟨k₁, e, rfl, h₁⟩ | ⟨k₁, k₂, S₁, h₁, h₂⟩
    · obtain ⟨S', h'⟩ := Node.Alone.transport ⟨k₁, h₁⟩ hsn.symm
      exact .inl ⟨n, List.mem_cons_self, e, S', h'⟩
    · obtain ⟨W, hW, rfl⟩ := Node.Makes.of_alone ⟨k₁, h₁⟩
      have hW' := hW.transport hsn.symm
      have hrest := hW'.agree_rest hn (he n List.mem_cons_self) hs
      rcases ih hns (fun m hm => he m (List.mem_cons_of_mem _ hm)) hrest h₂ with
        ⟨m, hm, e, S', h'⟩ | ⟨rfl, Ws, hWs, rfl⟩
      · exact .inl ⟨m, List.mem_cons_of_mem _ hm, e, S', h'⟩
      · refine .inr ⟨rfl, W :: Ws, .cons hW' hWs, ?_⟩
        rw [List.flatten_cons, Store.setAll_append]

/-! ### Nodes side by side -/

/-- How far a node has come in a run beside others, and the run of the node alone that has come as
far. -/
structure Branch where
  node : Node
  task : Task
  trace : List Mark
  store : Store

namespace Branch

/-- What the node has written. -/
def writes (b : Branch) : List (String × Json) := CommandChain.writes b.trace

/-- The node alone has come as far from the store `s`, and its store agrees with the common store
`S` on what the node reads. -/
structure IsRun (answers : String → List Json → Answer) (s S : Store) (b : Branch) : Prop where
  run : Run 0 (.guard b.node) s b.trace (.ok b.task) b.store
  obeys : Obeys answers b.trace
  agree : Store.AgreeOn b.node.view S b.store

variable {b x : Branch} {answer : Answer} {p : Position} {act : Act} {m : Moved}

/-- **A move in the common store can be made alone**, and it leaves the same of the node. -/
theorem IsRun.move (h : b.IsRun answers s S) (hm : b.task.Moves answer S 0 p act m)
    (hreply : ∀ x, act.reply? = some x → x.2 = answers x.1.command x.1.params) :
    ∃ τ S', Run 0 (.guard b.node) s τ m.task S' ∧ Obeys answers τ ∧
      CommandChain.writes τ = b.writes ++ act.write?.toList ∧
      Store.AgreeOn b.node.view m.store S' := by
  obtain ⟨c, hc, ha⟩ := h.run.isOf_of_guard hm
  obtain ⟨act', m', hm', ht, hr⟩ := hm.transport h.agree b.node.errorFlag_mem_view
    b.node.errorMessage_mem_view ha (Node.ownReads_subset_view hc)
  have hwrite : act'.write? = act.write? := by rw [act.write?_eq, act'.write?_eq, hr]
  refine ⟨b.trace ++ [⟨p, act'⟩], m'.store, ?_, ?_, ?_, ?_⟩
  · rw [← ht]
    exact h.run.step hm'
  · refine obeys_append.mpr ⟨h.obeys, obeys_singleton.mpr ?_⟩
    rw [hr]
    exact hreply
  · rw [writes_append, writes_singleton, hwrite]
    rfl
  · rw [hm.store_eq, hm'.store_eq, hwrite]
    exact h.agree.setAll _

theorem IsRun.write_mem_outs (h : b.IsRun answers s S) (hm : b.task.Moves answer S 0 p act m) :
    ∀ a ∈ act.write?.toList, a.1 ∈ b.node.outs := by
  obtain ⟨c, hc, ha⟩ := h.run.isOf_of_guard hm
  intro a haw
  exact Task.Moves.write_mem_outs hc ha (Option.mem_toList.mp haw)

/-- A move of one node is not seen by another. -/
theorem IsRun.elsewhere (h : x.IsRun answers s S) (hb : b.IsRun answers s S)
    (ha : b.node.Apart x.node) (he : b.node.SparesErrors) (hm : b.task.Moves answer S 0 p act m) :
    x.IsRun answers s m.store := by
  refine ⟨h.run, h.obeys, ?_⟩
  rw [hm.store_eq]
  refine Store.AgreeOn.trans (Store.AgreeOn.setAll_of_root fun a haw => ?_) h.agree
  exact ha.root_not_mem_view he (hb.write_mem_outs hm a haw)

/-- What the nodes of some branches have done together: each has come as far alone, and the common
store is the first one with all that they have written, branch by branch. -/
structure Together (answers : String → List Json → Answer) (s S : Store) (bs : List Branch) :
    Prop where
  runs : ∀ b ∈ bs, b.IsRun answers s S
  store : S = s.setAll (bs.flatMap (·.writes))

theorem together_start (s : Store) (ns : List Node) :
    Together answers s s (ns.map fun n => ⟨n, .guard n, [], s⟩) := by
  constructor
  · intro b hb
    obtain ⟨n, -, rfl⟩ := List.mem_map.mp hb
    exact ⟨.start, obeys_nil, .refl _ _⟩
  · have hnil : (ns.map fun n => (⟨n, .guard n, [], s⟩ : Branch)).flatMap (·.writes) = [] := by
      simp [writes, CommandChain.writes]
    rw [hnil]
    rfl

/-- **A move of one node** takes its branch on and leaves the others as they are. -/
theorem Together.move {l₁ l₂ : List Branch} {t : Task} (h : Together answers s S (l₁ ++ b :: l₂))
    (ha : ∀ x ∈ l₁ ++ l₂, b.node.Apart x.node) (he : b.node.SparesErrors)
    (hm : b.task.Moves answer S 0 p act m)
    (hreply : ∀ x, act.reply? = some x → x.2 = answers x.1.command x.1.params)
    (ht : m.task = .ok t) :
    ∃ b' : Branch, b'.node = b.node ∧ b'.task = t ∧
      Together answers s m.store (l₁ ++ b' :: l₂) := by
  have hb := h.runs b (by simp)
  obtain ⟨τ', S', hrun, hobeys, hwrites, hagree⟩ := hb.move hm hreply
  rw [ht] at hrun
  refine ⟨⟨b.node, t, τ', S'⟩, rfl, rfl, ?_, ?_⟩
  · intro x hx
    have hx' : x = ⟨b.node, t, τ', S'⟩ ∨ x ∈ l₁ ++ l₂ := by
      simp only [List.mem_append, List.mem_cons] at hx ⊢
      tauto
    rcases hx' with rfl | hx'
    · exact ⟨hrun, hobeys, hagree⟩
    · have hxrun := h.runs x (by
        simp only [List.mem_append, List.mem_cons] at hx' ⊢
        tauto)
      exact hxrun.elsewhere hb (ha x hx') he hm
  · -- the new write goes in front of those of the later branches
    have hlater : WritesApart act.write?.toList (l₂.flatMap (·.writes)) := by
      intro a haw c hc
      obtain ⟨x, hx, hc⟩ := List.mem_flatMap.mp hc
      exact (ha x (by simp [hx])).outs _ (hb.write_mem_outs hm a haw) _
        ((h.runs x (by simp [hx])).run.writes_mem_outs c hc)
    have hswap : ∀ u : Store, (u.setAll (l₂.flatMap (·.writes))).setAll act.write?.toList =
        (u.setAll act.write?.toList).setAll (l₂.flatMap (·.writes)) := by
      intro u
      rw [← Store.setAll_append, ← Store.setAll_append, Store.setAll_append_comm hlater]
    have hb' : Branch.writes ⟨b.node, t, τ', S'⟩ = b.writes ++ act.write?.toList := hwrites
    rw [hm.store_eq, h.store]
    simp only [List.flatMap_append, List.flatMap_cons, Store.setAll_append, hb', hswap]

end Branch

theorem exists_around {α : Type} {l : List α} {i : Nat} {a : α} (h : l[i]? = some a) :
    ∃ l₁ l₂, l = l₁ ++ a :: l₂ ∧ l₁.length = i := by
  obtain ⟨hi, rfl⟩ := List.getElem?_eq_some_iff.mp h
  exact ⟨l.take i, l.drop (i + 1), by simp, by simp; omega⟩

theorem apart_around {α : Type} {R : α → α → Prop} {l₁ l₂ : List α} {a : α}
    (hsymm : ∀ {x y}, R x y → R y x) (h : (l₁ ++ a :: l₂).Pairwise R) : ∀ x ∈ l₁ ++ l₂, R a x := by
  rw [List.pairwise_append, List.pairwise_cons] at h
  intro x hx
  rcases List.mem_append.mp hx with hx | hx
  · exact hsymm (h.2.2 x hx a List.mem_cons_self)
  · exact h.2.1.1 x hx

/-- **A run of nodes side by side** is made of one run of each node alone, as long as none fails;
and if one fails it does so alone. -/
theorem Run.branches {r : Except RunError Task} (ha : ns.Pairwise Node.Apart)
    (he : ∀ n ∈ ns, n.SparesErrors) (h : Run w (Task.sideBySide (ns.map .guard)) s τ r S)
    (ho : Obeys answers τ) :
    (∀ t, r = .ok t → ∃ bs : List Branch, bs.map (·.node) = ns ∧
      t = Task.sideBySide (bs.map (·.task)) ∧ Branch.Together answers s S bs) ∧
    ∀ e, r = .error e → ∃ n ∈ ns, ∃ S', n.Alone answers s (.error e) S' := by
  induction h with
  | start =>
    refine ⟨fun t ht => ?_, (fun e he => nomatch he)⟩
    cases ht
    refine ⟨_, ?_, ?_, Branch.together_start s ns⟩
    · rw [List.map_map]
      exact List.map_id ns
    · rw [List.map_map]
      rfl
  | @step τ t S answer p act m h hm ih =>
    obtain ⟨ho, hoact⟩ := obeys_append.mp ho
    obtain ⟨bs, rfl, rfl, hbs⟩ := (ih ho).1 t rfl
    rcases Task.sideBySide_eq (bs.map (·.task)) with hside | ⟨hside, -⟩
    · rw [hside] at hm
      cases hm with
      | @parallel w i ts u p act m' hu hm =>
        -- the node whose move it is, between those before it and those behind it
        obtain ⟨b, hb, rfl⟩ := Option.map_eq_some_iff.mp ((List.getElem?_map ..).symm.trans hu)
        obtain ⟨l₁, l₂, rfl, hi⟩ := exists_around hb
        have hreply := obeys_singleton.mp hoact
        have hapart : ∀ x ∈ l₁ ++ l₂, b.node.Apart x.node :=
          apart_around (R := fun x y : Branch => x.node.Apart y.node) Node.Apart.symm
            (List.pairwise_map.mp ha)
        refine ⟨fun t' ht' => ?_, fun e hfail => ?_⟩
        · obtain ⟨v, hv, rfl⟩ := Moved.inside_eq_ok.mp ht'
          obtain ⟨b', hnode, htask, hbs'⟩ := hbs.move hapart (he b.node (by simp)) hm hreply hv
          exact ⟨l₁ ++ b' :: l₂, by simp [hnode], by simp [← hi, htask], hbs'⟩
        · obtain ⟨τ', S', hrun, hobeys, -, -⟩ := (hbs.runs b (by simp)).move hm hreply
          rw [Moved.inside_eq_error.mp hfail] at hrun
          exact ⟨b.node, by simp, S', _, τ', rfl, hobeys, hrun⟩
    · rw [hside] at hm
      exact absurd rfl hm.ne_done

/-- Nodes side by side that come to an end have done what each makes alone, or one of them fails
alone. -/
theorem of_ends_sideBySide (ha : ns.Pairwise Node.Apart) (he : ∀ n ∈ ns, n.SparesErrors)
    (h : Task.Ends answers k w (Task.sideBySide (ns.map .guard)) s o S) :
    (∃ e, o = .error e ∧ ∃ n ∈ ns, ∃ S', n.Alone answers s (.error e) S') ∨
      o = .ok () ∧ ∃ Ws, List.Forall₂ (Node.Makes answers s) ns Ws ∧ S = s.setAll Ws.flatten := by
  obtain ⟨τ, -, hobeys, hrun⟩ := h
  rcases o with e | ⟨⟩
  · exact .inl ⟨e, rfl, (hrun.branches ha he hobeys).2 e rfl⟩
  · obtain ⟨bs, rfl, hdone, hbs⟩ := (hrun.branches ha he hobeys).1 .done rfl
    refine .inr ⟨rfl, bs.map (·.writes), ?_, ?_⟩
    · rw [List.forall₂_map_left_iff, List.forall₂_map_right_iff, List.forall₂_same]
      intro b hb
      have hbrun := hbs.runs b hb
      have hbdone : b.task = .done := by
        rcases Task.sideBySide_eq (bs.map (·.task)) with hside | ⟨-, hall⟩
        · rw [hside] at hdone
          cases hdone
        · exact hall b.task (List.mem_map_of_mem hb)
      refine ⟨b.trace, b.store, hbrun.obeys, ?_, rfl⟩
      rw [← hbdone]
      exact hbrun.run
    · rw [hbs.store, List.flatMap_def]

end CommandChain
