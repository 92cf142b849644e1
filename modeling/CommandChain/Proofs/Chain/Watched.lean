import CommandChain.Proofs.Chain.Fields
import CommandChain.Proofs.Text.Cut

/-!
# What an error block does to the command it watches

A command under an error block becomes the first node of a series, and on the way there its arrows
are taken apart once more. Input tokens and the path of the result stand this second pass. The
command stands it exactly if no arrow is left in it, and otherwise it is changed
(`keeps_watched_iff`): a quoted part of a short arrow loses its quotation marks in the first pass,
and the arrows between them count in the second. -/

namespace CommandChain

variable {t : List Char} {d : Draft} {ms : Members Json}

/-! ### Texts without arrows -/

namespace Arrow

/-- No arrow is found in the text. -/
def IsPlain (t : List Char) : Prop :=
  (Text.splitTop ['-', '-', '>'] t).length ≠ 2 ∧ (Text.splitTop ['-', '>'] t).length ≠ 2 ∧
    (Text.splitTop ['-', '>'] t).length ≠ 3

instance (t : List Char) : Decidable (IsPlain t) :=
  inferInstanceAs (Decidable (_ ∧ _ ∧ _))

theorem collectCommand_isPlain : IsPlain collectCommand.toList := by decide

/-- A text in which no short arrow counts is plain. -/
theorem isPlain_of_splitTop (h : Text.splitTop ['-', '>'] t = [t]) : IsPlain t := by
  have hlong : Text.splitTop ['-', '-', '>'] t = [t] :=
    (Text.splitTop_eq_singleton_iff (by simp)).mpr
      ((Text.splitTop_eq_singleton_iff (by simp)).mp h).longArrow
  simp [IsPlain, h, hlong]

theorem length_parts (t : List Char) :
    ((Text.splitTop ['-', '>'] t).map part).length = (Text.splitTop ['-', '>'] t).length :=
  List.length_map _

theorem ofChars_of_isPlain (h : IsPlain t) : ofChars t = ⟨none, t, none⟩ := by
  obtain ⟨h₁, h₂, h₃⟩ := h
  rw [← length_parts] at h₂ h₃
  unfold ofChars
  split
  · next hl => simp [hl] at h₁
  · split
    · next hs => simp [hs] at h₃
    · next hs => simp [hs] at h₂
    · rfl

theorem length_lt_of_mem_parts {p : List Char} (hp : p ∈ (Text.splitTop ['-', '>'] t).map part)
    (h : (Text.splitTop ['-', '>'] t).length ≠ 1) : p.length < t.length := by
  obtain ⟨q, hq, rfl⟩ := List.mem_map.mp hp
  have h₁ := Text.length_lt_of_mem_splitTop (by simp) hq h
  have h₂ := Text.length_unquote_le (Text.trim q)
  have h₃ := Text.length_trim_le q
  unfold part
  omega

theorem length_command_lt (h : ¬ IsPlain t) : (ofChars t).command.length < t.length := by
  have hlen := length_parts t
  unfold ofChars
  split
  · cases t with
    | nil => exact absurd (by decide) h
    | cons c cs => simp
  · next hl =>
    have hl' : (Text.splitTop ['-', '-', '>'] t).length ≠ 2 := by
      intro e
      obtain ⟨a, b, hab⟩ := List.length_eq_two.mp e
      exact hl a b hab
    split
    · next hs =>
      rw [hs] at hlen
      exact length_lt_of_mem_parts (by simp [hs]) (by simp [← hlen])
    · next a b hs =>
      rw [hs] at hlen
      have hb : b.length < t.length := length_lt_of_mem_parts (by simp [hs]) (by simp [← hlen])
      have ha : a.length < t.length := length_lt_of_mem_parts (by simp [hs]) (by simp [← hlen])
      split
      · exact hb
      · exact ha
    · next h₃ h₂ =>
      refine absurd ⟨hl', fun e => ?_, fun e => ?_⟩ h
      · obtain ⟨a, b, hab⟩ := List.length_eq_two.mp (hlen.trans e)
        exact h₂ a b hab
      · obtain ⟨a, b, c, habc⟩ := List.length_eq_three.mp (hlen.trans e)
        exact h₃ a b c habc

/-- A text with an arrow is not its own command. -/
theorem commandText_ofChars_ne (h : ¬ IsPlain t) : (ofChars t).commandText ≠ String.ofList t := by
  intro e
  unfold commandText at e
  split at e
  · rw [show t = collectCommand.toList by rw [e, String.toList_ofList]] at h
    exact h collectCommand_isPlain
  · have hlt := length_command_lt h
    rw [String.ofList_injective e] at hlt
    exact lt_irrefl _ hlt

theorem commandText_ne_empty (a : Arrow) : a.commandText.toList ≠ [] := by
  unfold commandText
  split
  · decide
  · next h => simpa using h

end Arrow

/-! ### The second pass over a draft -/

namespace Draft

/-- A command without arrows leaves the fields of its draft as they are. -/
theorem withArrow_of_isPlain {c : String} (h : d.command = some (.str c)) (hne : c.toList ≠ [])
    (hc : Arrow.IsPlain c.toList) : d.withArrow = d := by
  have htext : Arrow.commandText ⟨none, c.toList, none⟩ = c := by
    simp [Arrow.commandText, hne]
  unfold withArrow
  rw [h]
  simp only [Json.plainText, Arrow.ofChars_of_isPlain hc, htext, Option.map_none]
  cases d
  simp_all

/-- The watched leaf of a draft is the leaf of the draft in command, inputs and result if its
command has no arrows, and another command otherwise. -/
theorem watched_eq {c : String} (h : d.command = some (.str c)) (hne : c.toList ≠ []) :
    ∃ body c', d.watched = .leaf body c' ∧
      (Arrow.IsPlain c.toList → c' = c ∧ body.ins = d.info.ins ∧ body.out = d.info.out) ∧
      (¬ Arrow.IsPlain c.toList → c' ≠ c) := by
  unfold watched
  set e : Draft :=
    { command := d.command, ins := some (.arr ((tokens d.ins).map .str)), out := d.out }
  have hcommand : e.command = some (.str c) := h
  have harrow := command_withArrow hcommand
  refine ⟨e.withArrow.info, (Arrow.ofChars c.toList).commandText, ?_, fun hc => ?_, fun hc => ?_⟩
  · simp [node, harrow, Json.plainText]
  · rw [withArrow_of_isPlain hcommand hne hc, Arrow.ofChars_of_isPlain hc]
    refine ⟨?_, ?_, rfl⟩
    · simp [Arrow.commandText, hne]
    · exact tokens_arr fun u hu => trimmed_of_mem_tokens hu
  · have := Arrow.commandText_ofChars_ne hc
    rwa [String.ofList_toList] at this

end Draft

/-! ### Definitions with an error block -/

/-- The fields of an error block: its condition, and its message and its actions if it has any. -/
def errorBlock (error : Json) (message actions : Option Json) : Members Json :=
  ("error", error) :: ((message.map ("error_message", ·)).toList ++
    (actions.map ("error_actions", ·)).toList)

variable {error : Json} {message actions : Option Json} {name : String}

theorem get?_overlay_errorBlock (h : name ∉ ["error", "error_message", "error_actions"]) :
    Members.get? name (ms.overlay (errorBlock error message actions)) = Members.get? name ms := by
  refine Members.get?_overlay_of_forall_ne fun m hm e => h ?_
  unfold errorBlock at hm
  cases message <;> cases actions <;> simp_all <;> grind

theorem get?_error_overlay_errorBlock :
    Members.get? "error" (ms.overlay (errorBlock error message actions)) = some error := by
  show Members.get? "error" (Members.overlay (Members.insert "error" error ms) _) = some error
  rw [Members.get?_overlay_of_forall_ne, Members.get?_insert_self]
  cases message <;> cases actions <;> simp

namespace Draft

theorem pick_overlay_errorBlock {names : List String}
    (h : ∀ name ∈ names, name ∉ ["error", "error_message", "error_actions"]) :
    pick (ms.overlay (errorBlock error message actions)) names = pick ms names :=
  pick_congr fun name hname => get?_overlay_errorBlock (h name hname)

theorem chains_overlay_errorBlock :
    chains (ms.overlay (errorBlock error message actions)) = chains ms :=
  pick_overlay_errorBlock (by decide)

theorem ofMembers_overlay_errorBlock :
    ofMembers (ms.overlay (errorBlock error message actions)) = ofMembers ms := by
  unfold ofMembers modeField Members.contains
  rw [pick_overlay_errorBlock (by decide), pick_overlay_errorBlock (by decide),
    pick_overlay_errorBlock (by decide), get?_overlay_errorBlock (by decide),
    get?_overlay_errorBlock (by decide), get?_overlay_errorBlock (by decide),
    get?_overlay_errorBlock (by decide), get?_overlay_errorBlock (by decide)]

end Draft

namespace Node

theorem ofJson_of_error {c : Json} (hcommand : Draft.pick ms ["command", "process"] = some c)
    (hchains : Draft.chains ms = none) (herror : Members.get? "error" ms = some error) :
    ofJson (.obj ms) = (ofActions ms).map fun actions =>
      guarded (Draft.ofMembers ms).withArrow.info (Draft.ofMembers ms).withArrow.watched
        (handler error (Members.get? "error_message" ms) actions) := by
  have hc := Draft.command_withArrow (d := Draft.ofMembers ms) hcommand
  unfold ofJson
  split
  · simp_all
  · simp_all
    cases ofActions ms <;> rfl
  · simp_all
  · simp_all

theorem ofActions_of_none (h : Members.get? "error_actions" ms = none) :
    ofActions ms = .ok [] := by
  unfold ofActions
  split
  · simp_all
  · rfl

end Node

/-- Take a definition of a command, and the same definition with an error block. The first node of
the second is a leaf, with the command, the inputs and the result of the first exactly if no arrow
is left in the command of the first; if one is left, the command is another. -/
theorem keeps_watched_iff {v : Json} {n : Node}
    (hcommand : Draft.pick ms ["command", "process"] = some v) (hchains : Draft.chains ms = none)
    (herror : Members.get? "error" ms = none)
    (hn : Node.ofJson (.obj (ms.overlay (errorBlock error message actions))) = .ok n) :
    ∃ info c outer body c' handler,
      Node.ofJson (.obj ms) = .ok (.leaf info c) ∧ n = .group outer [.leaf body c', handler] ∧
      ((c' = c ∧ body.ins = info.ins ∧ body.out = info.out) ↔ Arrow.IsPlain c.toList) ∧
      (¬ Arrow.IsPlain c.toList → c' ≠ c) := by
  set d := (Draft.ofMembers ms).withArrow with hd
  set c := (Arrow.ofChars v.plainText.toList).commandText with hc
  have hdc : d.command = some (.str c) := Draft.command_withArrow hcommand
  have hleaf : d.node = .leaf d.info c := by simp [Draft.node, hdc, Json.plainText]
  obtain ⟨body, c', hwatched, hsame, hother⟩ := Draft.watched_eq hdc (Arrow.commandText_ne_empty _)
  -- the error block leaves the fields alone, so that the same draft is watched
  rw [Node.ofJson_of_error (c := v) (by rwa [Draft.pick_overlay_errorBlock (by decide)])
    (Draft.chains_overlay_errorBlock.trans hchains) get?_error_overlay_errorBlock,
    Draft.ofMembers_overlay_errorBlock, ← hd, hwatched] at hn
  cases hactions : Node.ofActions (ms.overlay (errorBlock error message actions)) with
  | error e => rw [hactions] at hn; cases hn
  | ok nodes =>
    rw [hactions] at hn
    cases hn
    refine ⟨d.info, c, _, body, c', _, ?_, rfl, ⟨fun h => ?_, hsame⟩, hother⟩
    · rw [Node.ofJson_of_fields hchains herror, ← hd, hleaf]
    · by_contra hplain
      exact hother hplain h.1

/-- The quoted arrow of `'x -> y' -> out` is kept by the definition and taken apart under an error
block. -/
theorem quoted_arrow_altered :
    ∃ info outer body c' handler,
      Node.ofJson (.obj [("command", .str "'x -> y' -> out")]) = .ok (.leaf info "x -> y") ∧
      Node.ofJson (.obj (Members.overlay [("command", .str "'x -> y' -> out")]
        (errorBlock (.str "false") none none))) = .ok (.group outer [.leaf body c', handler]) ∧
      c' ≠ "x -> y" := by
  have hfirst : Node.ofJson (.obj [("command", .str "'x -> y' -> out")]) =
      .ok (.leaf { out := "out" } "x -> y") := by
    have harrow : Arrow.ofChars "'x -> y' -> out".toList =
        ⟨none, "x -> y".toList, some "out".toList⟩ := by decide
    rw [Node.ofJson_of_fields rfl rfl]
    show Except.ok
        (Draft.withArrow ⟨some (.str "'x -> y' -> out"), none, none, none, none, none⟩).node = _
    unfold Draft.withArrow
    simp only [Json.plainText, harrow]
    rfl
  have hsecond : ∃ n, Node.ofJson (.obj (Members.overlay [("command", .str "'x -> y' -> out")]
      (errorBlock (.str "false") none none))) = .ok n := by
    rw [Node.ofJson_of_error (c := .str "'x -> y' -> out") rfl rfl
      get?_error_overlay_errorBlock, Node.ofActions_of_none rfl]
    exact ⟨_, rfl⟩
  obtain ⟨n, hn⟩ := hsecond
  obtain ⟨info, c, outer, body, c', handler, hinfo, rfl, -, hother⟩ :=
    keeps_watched_iff (v := .str "'x -> y' -> out") rfl rfl rfl hn
  rw [hfirst] at hinfo
  cases hinfo
  exact ⟨_, outer, body, c', handler, hfirst, hn, hother (by decide)⟩

end CommandChain
