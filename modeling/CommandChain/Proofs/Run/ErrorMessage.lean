import CommandChain.Proofs.Chain.Handler
import CommandChain.Proofs.Run.Frame
import CommandChain.Proofs.Run.Wrapped
import CommandChain.Proofs.Step.Stored
import CommandChain.Run.Chain

/-!
# The message of an error block

A definition with the field `error` and a message fails once its body has come to its end: the
handler stores the message and raises the error flag, and the run ends with the message that is in
the store. What the caller gets is the message as it is escaped in a JSON string
(`fails_with_escaped_message`). That is the declared message exactly if no character of it is a
double quote, a backslash or a control character. -/

namespace CommandChain

/-! ### The handler of an error block -/

theorem Store.raisedMessage?_set_errorMessage {m : String} (hne : m ≠ "")
    (htrim : Text.trimmed m = m) (hm : Json.parse? m = none) (s : Store) :
    (s.set errorMessage (.str (Json.escaped m))).raisedMessage? = some (Json.escaped m) := by
  have hnonempty : (Json.escaped m).isEmpty = false := by
    simpa [String.isEmpty_iff] using Json.escaped_ne_empty hne
  have hlookup : (s.set errorMessage (.str (Json.escaped m))).lookup errorMessage =
      some (.str (Json.escaped m)) := by
    rw [lookup_set_self, (literal_of_no_json hm htrim s).2]
  simp [raisedMessage?, hlookup, hnonempty]

namespace Running

variable {w : Workshop} {r : Running} {m : String}

theorem fails_raiseError (h : r.task = .guard Node.raiseError)
    (hmessage : r.store.raisedMessage?.getD defaultMessage = m) : Fails w 1 r (.raised m) := by
  have hliteral : r.store.literal (Json.str "true").text = .bool true := by
    have hread : Json.parse? (Json.escaped "true") = some (.bool true) := by
      unfold Json.parse? Json.parseChars? Json.readValue
      rfl
    rw [Store.literal_text, hread]
    rfl
  rw [raiseError_eq] at h
  have hfails := fails_leaf (w := w) h (Condition.holds_true _)
    (by rw [Step.params, List.map_singleton, hliteral, dispatch_collectCommand]; rfl)
    Store.errorRaised_set_errorFlag
  rwa [Store.raisedMessage?_set_of_root (by decide), hmessage] at hfails

/-- **The handler ends the run** with the message, as it is escaped in a JSON string. -/
theorem fails_handler (hne : m ≠ "") (htrim : Text.trimmed m = m) (hm : Json.parse? m = none)
    (h : r.task = .guard (Node.handler (.bool true) (some (.str m)) [])) :
    ∃ k ≤ 5, Fails w k r (.raised (Json.escaped m)) := by
  set handler := Node.handler (.bool true) (some (.str m)) []
  set stored := r.store.set Store.errorMessage (.str (Json.escaped m))
  have hmessage : stored.raisedMessage?.getD defaultMessage = Json.escaped m := by
    rw [Store.raisedMessage?_set_errorMessage hne htrim hm, Option.getD_some]
  have hreply : w.dispatch r.files collectCommand (Step.params [(Json.str m).text] r.store) =
      { answer := ⟨.ok (.str (Json.escaped m)), none⟩, files := r.files } := by
    rw [Step.params, List.map_singleton, (literal_of_no_json hm htrim r.store).1,
      dispatch_collectCommand]
    rfl
  obtain ⟨past, hguard⟩ := leads_first (w := w) h rfl (Condition.holds_true _)
  have hfirst :
      ({ r with task := .guard (Node.storeMessage (.str m)), events := [] } : Running).task =
        .guard (.leaf { ins := [(Json.str m).text], out := Store.errorMessage } collectCommand) :=
    congrArg Task.guard (storeMessage_eq (.str m))
  rcases hflag : stored.errorRaised with _ | _
  · -- the message is stored, and the next step raises the flag
    obtain ⟨past₁, hleads⟩ := leads_leaf hfirst (Condition.holds_true _) hreply hflag
      (Condition.holds_false _)
    have hstored : Leads w 3 _ { r with task := .done, store := stored, events := past₁ } := hleads
    have hraise := fails_raiseError (w := w) (r := { r with
      task := .guard Node.raiseError, store := stored, events := past₁ }) rfl hmessage
    have hrest := (leads_next hstored rfl handler Node.raiseError [] past).fails
      (hraise.within (Task.isFrame_member handler []) past)
    exact ⟨5, le_rfl, hguard.fails hrest⟩
  · -- a flag that is up already ends the run here
    have hfails := fails_leaf hfirst (Condition.holds_true _) hreply hflag
    have hstore : stored = r.store.set Store.errorMessage (.str (Json.escaped m)) := rfl
    rw [← hstore, hmessage] at hfails
    exact ⟨2, by omega, hguard.fails (hfails.within (Task.isFrame_member handler _) past)⟩

end Running

/-! ### Definitions with an error block -/

theorem Node.ofJson_of_watchedBody {ms : Members Json} {error : Json}
    (herror : Members.get? "error" ms = some error)
    (hactions : Members.get? "error_actions" ms = none)
    (hbody : (Draft.pick ms ["command", "process"]).isSome ∨ (Draft.chains ms).isSome) :
    ofJson (.obj ms) = (watchedBody ms).map fun body =>
      guarded (Draft.ofMembers ms).withArrow.info body
        (handler error (Members.get? "error_message" ms) []) := by
  rw [ofJson_of_watched herror hbody, ofActions_of_none hactions]
  cases watchedBody ms <;> rfl

namespace Running

variable {w : Workshop} {s : Store} {files : Files} {m : String} {n : Nat}
  {info : NodeInfo} {body : Node}

/-- **An error block without a condition** fails once its body has come to its end. -/
theorem fails_guarded (hne : m ≠ "") (htrim : Text.trimmed m = m) (hm : Json.parse? m = none)
    (hguard : Condition.holds info.guard s = true) (hbody : body.SucceedsIn w s files n)
    (ins : List String) (out : String) :
    ∃ k < n + 6, Fails w k
      { task := .guard (.group { info with mode := .series, ins, out }
          [body, Node.handler (.bool true) (some (.str m)) []])
        store := s
        files } (.raised (Json.escaped m)) := by
  obtain ⟨r, hrun, hdone⟩ := hbody
  obtain ⟨k, r₁, hk, hleads, hdone₁, -⟩ := exists_leads hrun hdone
  set handler := Node.handler (.bool true) (some (.str m)) []
  obtain ⟨past, hfirst⟩ := leads_first (w := w) (r := { task := .guard (.group
    { info with mode := .series, ins, out } [body, handler]), store := s, files }) rfl rfl hguard
  obtain ⟨j, hj, hfails⟩ := fails_handler (w := w) (r := { r₁ with task := .guard handler })
    hne htrim hm rfl
  have hrest := (leads_next hleads hdone₁ (.group { info with mode := .series, ins, out }
    [body, handler]) handler [] past).fails (hfails.within (Task.isFrame_member _ []) past)
  exact ⟨1 + (k + j), by omega, hfirst.fails hrest⟩

end Running

theorem Draft.guard_of_none {ms : Members Json} (hif : Members.get? "if" ms = none) :
    (Draft.ofMembers ms).withArrow.info.guard = "true" := by
  unfold Draft.withArrow
  split
  · simp [Draft.ofMembers, Draft.info, hif]
  · simp [Draft.ofMembers, Draft.info, hif]

/-! ### Chains -/

namespace Chain

variable {c : Chain} {w : Workshop} {files : Files} {args : List Json} {presets : Members Json}

/-- A run of the chain before its first step. -/
def start (c : Chain) (w : Workshop) (files : Files) (args : List Json) (presets : Members Json) :
    Running where
  task := .ofBody c.root
  store := .prepare c w.discovery.workingDirectory w.home args presets
  files := files

theorem run_of_error {e : RunError} {r : Running}
    (h : (c.start w files args presets).run w maxSteps = some (.error (e, r))) (verbose : Bool) :
    (c.run w verbose files args presets).isSuccess = false ∧
      (c.run w verbose files args presets).output = .str "" ∧
      (c.run w verbose files args presets).message = e.message := by
  unfold start at h
  simp only [run, h]
  exact ⟨rfl, rfl, rfl⟩

end Chain

/-- **A definition with an error block fails with its message as it is escaped in a JSON string.**
Take a definition with a command or children, with `error` true and with a message that is not
empty, has no blanks at its ends and is no JSON text. Wherever its body comes to its end without a
failure, the whole fails: the output is empty, and the message is the declared one as it is escaped
in a JSON string. That is the declared message exactly if no character of it is a double quote, a
backslash or a control character. Neither what the store holds nor what the body writes makes a
difference. -/
theorem fails_with_escaped_message {ms : Members Json} {c : Chain} {m : String}
    (hc : Chain.ofJson (.obj ms) = .ok c)
    (hbody : (Draft.pick ms ["command", "process"]).isSome ∨ (Draft.chains ms).isSome)
    (hif : Members.get? "if" ms = none) (herror : Members.get? "error" ms = some (.bool true))
    (hmessage : Members.get? "error_message" ms = some (.str m))
    (hactions : Members.get? "error_actions" ms = none)
    (hne : m ≠ "") (htrim : Text.trimmed m = m) (hm : Json.parse? m = none) :
    (∃ body, Node.watchedBody ms = .ok body ∧
      ∀ (w : Workshop) (files : Files) (args : List Json) (presets : Members Json) (n : Nat),
        body.SucceedsIn w (c.start w files args presets).store files n →
        (∀ steps, n + 6 ≤ steps → ∃ r, (c.start w files args presets).run w steps =
          some (.error (.raised (Json.escaped m), r))) ∧
        (n + 6 ≤ maxSteps → ∀ verbose,
          (c.run w verbose files args presets).isSuccess = false ∧
          (c.run w verbose files args presets).output = .str "" ∧
          (c.run w verbose files args presets).message = Json.escaped m)) ∧
    (Json.escaped m = m ↔ ∀ ch ∈ m.toList, ch ≠ '"' ∧ ch ≠ '\\' ∧ 32 ≤ ch.toNat) := by
  refine ⟨?_, Json.escaped_eq_self_iff⟩
  obtain ⟨p, hp, hroot⟩ := Chain.exists_wrap hc
  rw [Node.ofJson_of_watchedBody herror hactions hbody, hmessage] at hp
  rcases hwatched : Node.watchedBody ms with e | body
  · rw [hwatched] at hp
    cases hp
  rw [hwatched] at hp
  cases hp
  refine ⟨body, rfl, fun w files args presets n hsucceeds => ?_⟩
  have hguard : Condition.holds (Draft.ofMembers ms).withArrow.info.guard
      (c.start w files args presets).store = true := by
    rw [Draft.guard_of_none hif, Condition.holds_true]
  obtain ⟨k, hk, hfails⟩ := Running.fails_guarded hne htrim hm hguard hsucceeds [] defaultOut
  have hstart : Running.Fails w k (c.start w files args presets) (.raised (Json.escaped m)) := by
    unfold Chain.start
    rw [hroot]
    exact hfails.within (Task.isFrame_andThen []) []
  refine ⟨fun steps hsteps => hstart.run_eq (by omega), fun hn verbose => ?_⟩
  obtain ⟨r, hr⟩ := hstart.run_eq (show k < maxSteps by omega)
  exact Chain.run_of_error hr verbose

/-- The command `() => "done"` with the message `say "no"`. -/
def quotedMessage : Members Json :=
  [("command", .str "() => \"done\""), ("error", .bool true), ("error_message", .str "say \"no\"")]

theorem withArrow_quotedMessage :
    (Draft.ofMembers quotedMessage).withArrow = { command := some (.str "() => \"done\"") } :=
  Draft.withArrow_of_isPlain (d := { command := some (.str "() => \"done\"") }) rfl (by decide)
    (by decide)

theorem watchedBody_quotedMessage :
    Node.watchedBody quotedMessage = .ok (.leaf {} "() => \"done\"") := by
  have hwatched : Draft.watched { command := some (.str "() => \"done\"") } =
      .leaf {} "() => \"done\"" := by
    unfold Draft.watched
    rw [Draft.withArrow_of_isPlain rfl (by decide) (by decide)]
    rfl
  unfold Node.watchedBody
  rw [withArrow_quotedMessage]
  exact congrArg Except.ok hwatched

theorem dispatch_done (w : Workshop) (files : Files) :
    w.dispatch files "() => \"done\"" [] = { answer := ⟨.ok (.str "done"), none⟩, files } := by
  have hcontent : Token.content ['d', 'o', 'n', 'e'] = "done" := by decide +kernel
  have hparse : Expr.parse "() => \"done\"" = .ok (.lambda [] none (.str "done")) := by
    rw [← hcontent]
    exact Syntax.parse_of_lex
      (d := .lambda .empty (.expression (.ofPrimary (.string '"' ['d', 'o', 'n', 'e']))))
      rfl (by decide) (by decide +kernel)
  have hkind : StepKind.ofCommand "() => \"done\"" = .expression := by decide
  have hvalue : Expr.applyText "() => \"done\"" [] = .ok (.str "done") := by
    rw [Expr.applyText_eq hparse]
    rfl
  simp only [Workshop.dispatch, hkind, hvalue, Answer.ofExpr]

/-- The chain of that definition. -/
def quotedMessageChain : Chain :=
  ⟨[], false, (Node.guarded {} (.leaf {} "() => \"done\"")
    (Node.handler (.bool true) (some (.str "say \"no\"")) [])).wrap⟩

theorem quotedMessage_escaped :
    Chain.ofJson (.obj quotedMessage) = .ok quotedMessageChain ∧
      ∀ files, (quotedMessageChain.run { discovery := { workingDirectory := "/" } } false files []
        []).message = "say \\\"no\\\"" := by
  have herror : Members.get? "error" quotedMessage = some (.bool true) := rfl
  have hc : Chain.ofJson (.obj quotedMessage) = .ok quotedMessageChain := by
    unfold Chain.ofJson
    rw [Node.ofJson_of_watchedBody herror rfl (.inl rfl), watchedBody_quotedMessage,
      withArrow_quotedMessage]
    rfl
  have hjson : Json.parse? "say \"no\"" = none := by
    unfold Json.parse? Json.parseChars? Json.readValue
    rfl
  refine ⟨hc, fun files => ?_⟩
  obtain ⟨⟨body, hbody, hruns⟩, -⟩ := fails_with_escaped_message (m := "say \"no\"") hc (.inl rfl)
    rfl herror rfl rfl (by decide) (by decide) hjson
  rw [watchedBody_quotedMessage] at hbody
  cases hbody
  have hdown : ∀ w : Workshop, (((quotedMessageChain.start w files [] []).store.set defaultOut
      (.str "done")).errorRaised) = false := by
    intro w
    unfold Chain.start Store.prepare
    simp only [Store.errorRaised_set_of_root (p := defaultOut) (by decide),
      Store.errorRaised_set_of_root (p := chainDirectory) (by decide),
      Store.errorRaised_set_of_root (p := startDirectory) (by decide)]
    rfl
  have hsteps : 4 + 6 ≤ maxSteps := by decide +kernel
  obtain ⟨-, -, hmessage⟩ := (hruns { discovery := { workingDirectory := "/" } } files [] [] 4
    (Node.succeedsIn_leaf (Condition.holds_true _) (dispatch_done _ files) (hdown _)
      (Condition.holds_false _))).2 hsteps false
  rw [hmessage]
  decide

end CommandChain
