import CommandChain.Proofs.Chain.Watched
import CommandChain.Proofs.Json.Atom

/-!
# The handler of an error block

A definition with an error block becomes a series of what it was before and of a handler
(`ofJson_of_watched`). The first step of the handler stores the message. It is written as a command
`(message)-->_error_message` that is read like any other command, so that the text of the message
goes through the search for arrows, parentheses and commas. Since the text of a JSON value is
closed, the step is a leaf with this text as its only input token, whatever the message is
(`storeMessage_eq`).

So the handler is known in every part (`ofJson_errorBlock`). -/

namespace CommandChain

open Text (Scan)

/-! ### The leaf that stores a value -/

section

variable {v : Json} {out : String}

theorem splitIns_compact (v : Json) : splitIns ('(' :: (v.compact ++ [')'])) = [v.text] := by
  obtain ⟨hne, htrimmed⟩ := v.isTrimmed_compact
  have hinside : stripParentheses ('(' :: (v.compact ++ [')'])) = v.compact := by
    simp [stripParentheses]
  have hends : Text.trim ('(' :: (v.compact ++ [')'])) = '(' :: (v.compact ++ [')']) :=
    Text.trim_eq_self (Text.isTrimmed_of_ends (by decide) (by decide) _)
  unfold splitIns
  rw [hends, hinside, Json.splitTop_compact, List.map_singleton, Text.trim_eq_self htrimmed]
  simp [hne, Json.text]

theorem ofChars_compact (hout : Text.splitTop ['-', '-', '>'] out.toList = [out.toList]) :
    Arrow.ofChars ('(' :: (v.compact ++ [')']) ++ (['-', '-', '>'] ++ out.toList)) =
      ⟨some ('(' :: (v.compact ++ [')'])), [], some (Text.trim out.toList)⟩ := by
  have hcut : Text.splitTop ['-', '-', '>'] ('(' :: (v.compact ++ [')']) ++
      (['-', '-', '>'] ++ out.toList)) = ['(' :: (v.compact ++ [')']), out.toList] := by
    obtain ⟨hclears, hend⟩ :=
      (v.keeps_compact 0).parenthesized (List.cons_ne_nil '-' ['-', '>']) (by simp)
    rw [← hout]
    exact Text.splitTop_append (by simp) hclears hend
  unfold Arrow.ofChars
  rw [hcut]

/-- **A step that stores a value** is a leaf that collects, with the text of the value as its only
input token. -/
theorem ofCommand_eq (hout : Text.splitTop ['-', '-', '>'] out.toList = [out.toList])
    (htrim : Text.trimmed out = out) (hne : out ≠ "") {command : String}
    (hcommand : command.toList = '(' :: (v.compact ++ [')']) ++ (['-', '-', '>'] ++ out.toList)) :
    Node.ofCommand command = .leaf { ins := [v.text], out } collectCommand := by
  have harrow := ofChars_compact (v := v) hout
  rw [← hcommand] at harrow
  have hout' : String.ofList (Text.trim out.toList) = out := htrim
  have hpath : Draft.outPath (some (.str out)) = out := Draft.outPath_str hne
  have hmode : Mode.ofText "" = .series := by decide
  unfold Node.ofCommand Draft.withArrow
  simp [Json.plainText, harrow, Arrow.commandText, Draft.node, Draft.info, Draft.tokens,
    splitIns_compact, hout', hpath, hmode]

theorem storeMessage_eq (m : Json) :
    Node.storeMessage m = .leaf { ins := [m.text], out := "_error_message" } collectCommand :=
  ofCommand_eq (by decide) (by decide) (by decide) (by simp [Json.text])

theorem raiseError_eq :
    Node.raiseError = .leaf { ins := [(Json.str "true").text], out := "_error" } collectCommand :=
  ofCommand_eq (by decide) (by decide) (by decide) (by decide)

end

/-! ### Definitions with an error block -/

variable {ms : Members Json} {n : Node} {error : Json}

namespace Node

/-- The node that an error block watches: the children of a definition, or its command. -/
def watchedBody (ms : Members Json) : Except NormalizeError Node :=
  let d := (Draft.ofMembers ms).withArrow
  match Draft.chains ms with
  | some items => (ofItems items.toList).map (.group { mode := d.info.mode })
  | none => .ok d.watched

theorem ofJson_of_watched (herror : Members.get? "error" ms = some error)
    (hbody : (Draft.pick ms ["command", "process"]).isSome ∨ (Draft.chains ms).isSome) :
    ofJson (.obj ms) = (watchedBody ms).bind fun body => (ofActions ms).map fun actions =>
      guarded (Draft.ofMembers ms).withArrow.info body
        (handler error (Members.get? "error_message" ms) actions) := by
  rcases hchains : Draft.chains ms with _ | items
  · rw [hchains] at hbody
    obtain ⟨c, hc⟩ := Option.isSome_iff_exists.mp (hbody.resolve_right (by simp))
    rw [ofJson_of_error hc hchains herror, watchedBody, hchains]
    rfl
  · unfold ofJson
    split
    · next error' items' herror' hchains' =>
      rw [herror, Option.some.injEq] at herror'
      rw [hchains, Option.some.injEq] at hchains'
      subst herror' hchains'
      simp only [watchedBody, hchains]
      cases ofItems items.toList <;> cases ofActions ms <;> rfl
    · simp_all
    · simp_all
    · simp_all

end Node

/-- **The handler of an error block is exact.** A definition with the field `error` and with
children or a command is a series of two nodes. The second is a series under the condition `error`:
it stores the message as a value, if there is one, runs the actions one after the other, and raises
the error flag. The message may be any value, also a text with quotation marks, arrows, brackets and
commas. -/
theorem ofJson_errorBlock (herror : Members.get? "error" ms = some error)
    (hbody : (Draft.pick ms ["command", "process"]).isSome ∨ (Draft.chains ms).isSome)
    (hn : Node.ofJson (.obj ms) = .ok n) :
    ∃ info body actions,
      n = .group info [body,
        .group { mode := .series, guard := error.plainText, loop := "false" }
          (((Members.get? "error_message" ms).map fun m =>
              Node.leaf { ins := [m.text], out := "_error_message" } collectCommand).toList ++
            actions ++ [.leaf { ins := ["\"true\""], out := "_error" } collectCommand])] ∧
      info.mode = .series ∧ (Node.actionItems ms).map Node.ofJson = actions.map .ok := by
  rw [Node.ofJson_of_watched herror hbody, Node.ofActions_eq] at hn
  obtain ⟨body, -, hrest⟩ := bind_eq_ok_iff.mp hn
  obtain ⟨actions, hactions, rfl⟩ := map_eq_ok_iff.mp hrest
  refine ⟨{ (Draft.ofMembers ms).withArrow.info with mode := .series }, body, actions, ?_, rfl,
    Node.ofItems_eq_ok_iff.mp hactions⟩
  have htrue : (Json.str "true").text = "\"true\"" := by decide
  simp only [Node.guarded, Node.handler, raiseError_eq, htrue, funext storeMessage_eq]

/-- A message that is an object with quotation marks, arrows, brackets and commas, and one
action. -/
def nestedMessage : Members Json :=
  [("error", .str "x > 1"), ("process", .str "f"),
    ("error_message", .obj [("say \"-->\"", .arr [.str ") -> (", .null])]),
    ("error_actions", .str "undo")]

theorem nestedMessage_handled :
    ∃ info body, Node.ofJson (.obj nestedMessage) = .ok (.group info [body,
      .group { guard := "x > 1" }
        [.leaf { ins := ["\x7b\"say \\\"-->\\\"\":[\") -> (\",null]\x7d"], out := "_error_message" }
            collectCommand,
          Node.ofCommand "undo",
          .leaf { ins := ["\"true\""], out := "_error" } collectCommand]]) := by
  have herror : Members.get? "error" nestedMessage = some (.str "x > 1") := rfl
  have hundo : (Node.actionItems nestedMessage).map Node.ofJson =
      [Node.ofCommand "undo"].map Except.ok := by
    show [Node.ofJson (.str "undo")] = _
    rw [Node.ofJson]
    rfl
  obtain ⟨n, hn⟩ : ∃ n, Node.ofJson (.obj nestedMessage) = .ok n := by
    rw [Node.ofJson_of_watched herror (.inl rfl), Node.ofActions_eq,
      Node.ofItems_eq_ok_iff.mpr hundo]
    exact ⟨_, rfl⟩
  obtain ⟨info, body, actions, rfl, -, hactions⟩ := ofJson_errorBlock herror (.inl rfl) hn
  have hlist : actions = [Node.ofCommand "undo"] :=
    List.map_injective_iff.mpr (fun _ _ => Except.ok.inj) (hactions.symm.trans hundo)
  have htext : (Json.obj [("say \"-->\"", .arr [.str ") -> (", .null])]).text =
      "\x7b\"say \\\"-->\\\"\":[\") -> (\",null]\x7d" := by decide
  subst hlist
  exact ⟨info, body, hn.trans (by rw [← htext]; rfl)⟩

end CommandChain
