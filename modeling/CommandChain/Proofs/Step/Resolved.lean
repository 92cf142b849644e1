import CommandChain.Proofs.Text.Cut
import CommandChain.Step.Dispatch
import Mathlib.Tactic.SplitIfs

/-!
# What references resolve to

The text of a reference is a name and a dotted path in brackets, with any number of spaces around
them (`Reference.text`). Such a text is taken apart into that name and that path
(`ofCommand?_text`).

A registered name means the function that stands in its tree at exactly that path (`Export.At`), and
nothing if there is none: something is missing on the way, the path ends at a group, or it goes
through a function (`Export.LeadsNowhere`). The files do not matter then. Any other name means the
first of its candidates that is a file. -/

namespace CommandChain

open Text (Scan)

/-! ### Trees of functions -/

namespace Export

variable {e x : Export} {ms : Members Export} {s : String} {path : List String}
  {f : List Json → CapabilityOutput}

/-- What stands in a tree at a path. -/
inductive At : Export → List String → Export → Prop
  | here (e : Export) : At e [] e
  | inside {ms : Members Export} {s : String} {e x : Export} {path : List String}
      (hget : Members.get? s ms = some e) (h : At e path x) : At (.group ms) (s :: path) x

/-- Why there is no function in a tree at a path. -/
inductive LeadsNowhere (e : Export) (path : List String) : Prop
  /-- A group on the way has no member of the next name. -/
  | missing {front back : List String} {s : String} {ms : Members Export}
      (hpath : path = front ++ s :: back) (hgroup : At e front (.group ms))
      (hget : Members.get? s ms = none)
  /-- At the end there is a group. -/
  | group {ms : Members Export} (hgroup : At e path (.group ms))
  /-- On the way there is a function. -/
  | through {front back : List String} {s : String} {f : List Json → CapabilityOutput}
      (hpath : path = front ++ s :: back) (hfunction : At e front (.function f))

theorem at_nil_iff : At e [] x ↔ e = x := by
  constructor
  · rintro ⟨⟩
    rfl
  · rintro rfl
    exact .here e

theorem at_group_cons_iff :
    At (.group ms) (s :: path) x ↔ ∃ e, Members.get? s ms = some e ∧ At e path x := by
  constructor
  · rintro (_ | ⟨hget, h⟩)
    exact ⟨_, hget, h⟩
  · rintro ⟨e, hget, h⟩
    exact .inside hget h

theorem not_at_function_cons : ¬ At (.function f) (s :: path) x := by
  rintro ⟨⟩

/-- A walk finds the function at a path, and only that. -/
theorem walk_eq_some_iff : e.walk path = some f ↔ At e path (.function f) := by
  induction path generalizing e with
  | nil =>
    cases e with
    | function g => simp [walk, at_nil_iff]
    | group ms => simp [walk, at_nil_iff]
  | cons s path ih =>
    cases e with
    | function g => simp [walk, not_at_function_cons]
    | group ms =>
      rw [walk, Option.bind_eq_some_iff, at_group_cons_iff]
      simp only [ih]

theorem LeadsNowhere.inside (hget : Members.get? s ms = some e) (h : LeadsNowhere e path) :
    LeadsNowhere (.group ms) (s :: path) := by
  cases h with
  | missing hpath hgroup hnone =>
    exact .missing (by rw [hpath, List.cons_append]) (.inside hget hgroup) hnone
  | group hgroup => exact .group (.inside hget hgroup)
  | through hpath hfunction =>
    exact .through (by rw [hpath, List.cons_append]) (.inside hget hfunction)

theorem leadsNowhere_of_walk (h : e.walk path = none) : LeadsNowhere e path := by
  induction path generalizing e with
  | nil =>
    cases e with
    | function g => simp [walk] at h
    | group ms => exact .group (.here _)
  | cons s path ih =>
    cases e with
    | function g =>
      have hpath : s :: path = [] ++ s :: path := rfl
      exact .through hpath (.here _)
    | group ms =>
      rw [walk] at h
      cases hget : Members.get? s ms with
      | none =>
        have hpath : s :: path = [] ++ s :: path := rfl
        exact .missing hpath (.here _) hget
      | some e =>
        rw [hget, Option.bind_some] at h
        exact (ih h).inside hget

/-- What stands at a longer path stands behind what stands at its beginning. -/
theorem At.behind {front back : List String} {y : Export} (h : At e front x)
    (hy : At e (front ++ back) y) : At x back y := by
  induction h with
  | here e => exact hy
  | inside hget h ih =>
    obtain ⟨e', hget', h'⟩ := at_group_cons_iff.mp hy
    obtain rfl := Option.some.inj (hget.symm.trans hget')
    exact ih h'

theorem LeadsNowhere.not_at (h : LeadsNowhere e path) : ¬ At e path (.function f) := by
  intro hf
  cases h with
  | missing hpath hgroup hnone =>
    obtain ⟨e', hget, -⟩ := at_group_cons_iff.mp (hgroup.behind (hpath ▸ hf))
    cases hnone.symm.trans hget
  | group hgroup =>
    have hend : At e (path ++ []) (.function f) := by rwa [List.append_nil]
    cases at_nil_iff.mp (hgroup.behind hend)
  | through hpath hfunction =>
    exact not_at_function_cons (hfunction.behind (hpath ▸ hf))

/-- A walk finds nothing exactly if the path leads nowhere. -/
theorem walk_eq_none_iff : e.walk path = none ↔ LeadsNowhere e path := by
  refine ⟨leadsNowhere_of_walk, fun h => ?_⟩
  cases hwalk : e.walk path with
  | none => rfl
  | some f => exact absurd (walk_eq_some_iff.mp hwalk) h.not_at

end Export

/-! ### The text of a reference -/

namespace Reference

/-- No blank, no quotation mark and no bracket. -/
def isPlain (c : Char) : Bool := !Text.isBlank c && Scan.isNeutral c

/-- A text that can stand as the name of a reference. -/
def IsName (name : String) : Prop := name ≠ "" ∧ ∀ c ∈ name.toList, isPlain c = true

instance (name : String) : Decidable (IsName name) :=
  @instDecidableAnd _ _ _ (List.decidableBAll (fun c => isPlain c = true) name.toList)

/-- A path as it is written, with a dot between its segments. -/
def pathText (path : List String) : String := String.intercalate "." path

/-- Segments that can stand as the path of a reference: there are none, or something of them is
seen. -/
def IsPath (path : List String) : Prop :=
  (∀ s ∈ path, ∀ c ∈ s.toList, isPlain c = true ∧ c ≠ '.') ∧ (path = [] ∨ pathText path ≠ "")

instance (path : List String) : Decidable (IsPath path) :=
  have segment (s : String) : Decidable (∀ c ∈ s.toList, isPlain c = true ∧ c ≠ '.') :=
    List.decidableBAll _ s.toList
  @instDecidableAnd _ _ (@List.decidableBAll _ _ segment path) _

/-- So many spaces. -/
def spaces (n : Nat) : String := String.ofList (List.replicate n ' ')

/-- The text of a reference, with spaces before the name, surplus spaces before the path and spaces
behind them. -/
def text (before between behind : Nat) (name : String) (path : List String) : String :=
  "[" ++ spaces before ++ name ++
    (if path = [] then "" else spaces (between + 1) ++ pathText path) ++ spaces behind ++ "]"

/-! ### Words -/

/-- A word: at least one character, and plain ones only. -/
def IsWord (w : List Char) : Prop := w ≠ [] ∧ ∀ c ∈ w, isPlain c = true

variable {w t : List Char} {name : String} {path : List String}

theorem IsWord.isBlank (h : IsWord w) {c : Char} (hc : c ∈ w) : Text.isBlank c = false := by
  have := h.2 c hc
  simp only [isPlain, Bool.and_eq_true, Bool.not_eq_true'] at this
  exact this.1

theorem IsWord.isNeutral (h : IsWord w) {c : Char} (hc : c ∈ w) : Scan.isNeutral c = true := by
  have := h.2 c hc
  simp only [isPlain, Bool.and_eq_true] at this
  exact this.2

theorem IsWord.clears (h : IsWord w) (v : List Char) : Scan.start.Clears [' '] v w :=
  Scan.clears_of_not_mem fun hmem => absurd (h.isBlank hmem) (by decide)

theorem IsWord.trim_eq (h : IsWord w) : Text.trim w = w :=
  Text.trim_eq_self (Text.isTrimmed_of_forall fun _ hc => h.isBlank hc)

theorem IsWord.unquote_eq (h : IsWord w) : Text.unquote w = w := by
  obtain ⟨c, cs, rfl⟩ := List.exists_cons_of_ne_nil h.1
  have hc : Scan.isNeutral c = true := h.isNeutral List.mem_cons_self
  simp only [Scan.isNeutral, Bool.not_eq_true', Bool.or_eq_false_iff] at hc
  simp [Text.unquote, Text.unquote?, hc]

/-- Spaces are left out. -/
theorem words_space_cons (t : List Char) : words (' ' :: t) = words t := by
  have hsplit : Text.splitTop [' '] (' ' :: t) = [] :: Text.splitTop [' '] t :=
    Text.splitTop_append (List.cons_ne_nil _ _) (Scan.clears_of_not_mem List.not_mem_nil) rfl
  have hempty : Text.unquote (Text.trim []) = [] := by decide
  simp [words, hsplit, hempty]

/-- A word is cut off at the space behind it. -/
theorem words_append (h : IsWord w) (t : List Char) : words (w ++ ' ' :: t) = w :: words t := by
  have hrun : Scan.start.run w = .start := Scan.run_of_isNeutral (fun _ hc => h.isNeutral hc) 0
  have hsplit : Text.splitTop [' '] (w ++ ' ' :: t) = w :: Text.splitTop [' '] t :=
    Text.splitTop_append (List.cons_ne_nil _ _) (h.clears _) hrun
  simp [words, hsplit, h.trim_eq, h.unquote_eq, h.1]

theorem words_word (h : IsWord w) : words w = [w] := by
  have hsplit : Text.splitTop [' '] w = [w] :=
    (Text.splitTop_eq_singleton_iff (List.cons_ne_nil _ _)).mpr (h.clears _)
  simp [words, hsplit, h.trim_eq, h.unquote_eq, h.1]

theorem words_spaces_append (n : Nat) (t : List Char) :
    words (List.replicate n ' ' ++ t) = words t := by
  induction n with
  | zero => rfl
  | succ n ih => rw [List.replicate_succ, List.cons_append, words_space_cons, ih]

theorem words_append_spaces (h : IsWord w) (n : Nat) : words (w ++ List.replicate n ' ') = [w] := by
  cases n with
  | zero => rw [List.replicate_zero, List.append_nil, words_word h]
  | succ n =>
    have hrest : words (List.replicate n ' ') = [] := by
      have := words_spaces_append n []
      rw [List.append_nil] at this
      rw [this]
      rfl
    rw [List.replicate_succ, words_append h, hrest]

/-! ### Taking a reference apart -/

theorem IsName.isWord (h : IsName name) : IsWord name.toList :=
  ⟨fun hnil => h.1 (String.toList_inj.mp hnil), h.2⟩

theorem toList_pathText (path : List String) :
    (pathText path).toList = ['.'].intercalate (path.map String.toList) := by
  simp [pathText, String.toList_intercalate]

theorem IsPath.isWord (h : IsPath path) (hne : path ≠ []) : IsWord (pathText path).toList := by
  refine ⟨fun hnil => (h.2.resolve_left hne) (String.toList_inj.mp hnil), fun c hc => ?_⟩
  obtain ⟨s, more, rfl⟩ := List.exists_cons_of_ne_nil hne
  rw [toList_pathText, List.map_cons, Text.intercalate_cons_eq_append, List.mem_append] at hc
  rcases hc with hc | hc
  · exact (h.1 s List.mem_cons_self c hc).1
  · simp only [List.flatMap_map, List.mem_flatMap, List.mem_cons] at hc
    obtain ⟨r, hr, rfl | hc⟩ := hc
    · decide
    · exact (h.1 r (List.mem_cons_of_mem _ hr) c hc).1

/-- A path is got back from its text. -/
theorem IsPath.fieldsText_eq (h : IsPath path) (hne : path ≠ []) :
    Text.fieldsText '.' (pathText path) = path := by
  have hfree : ∀ w ∈ path.map String.toList, '.' ∉ w := by
    intro w hw hdot
    obtain ⟨s, hs, rfl⟩ := List.mem_map.mp hw
    exact (h.1 s hs _ hdot).2 rfl
  rw [Text.fieldsText, toList_pathText, Text.fields_intercalate (by simpa using hne) hfree,
    List.map_map, String.ofList_comp_toList, List.map_id]

theorem inner?_brackets (t : List Char) : inner? ('[' :: (t ++ [']'])) = some t := by
  simp [inner?]

/-- **The text of a reference** is taken apart into its name and its path. -/
theorem ofCommand?_text (hname : IsName name) (hpath : IsPath path) (before between behind : Nat) :
    ofCommand? (text before between behind name path) = some ⟨name, path⟩ := by
  by_cases hnil : path = []
  · have htext : (text before between behind name path).toList =
        '[' ::
        (List.replicate before ' ' ++ (name.toList ++ List.replicate behind ' ') ++ [']']) := by
      simp [text, spaces, hnil]
    have hwords := words_append_spaces hname.isWord behind
    rw [← words_spaces_append before] at hwords
    rw [ofCommand?, htext, inner?_brackets, Option.bind_some, hwords]
    simp [hnil]
  · have htext : (text before between behind name path).toList =
        '[' :: (List.replicate before ' ' ++ (name.toList ++ ' ' :: (List.replicate between ' ' ++
          ((pathText path).toList ++ List.replicate behind ' '))) ++ [']']) := by
      simp [text, spaces, hnil, List.replicate_succ]
    have hwords : words (List.replicate before ' ' ++ (name.toList ++ ' ' ::
        (List.replicate between ' ' ++ ((pathText path).toList ++ List.replicate behind ' ')))) =
        [name.toList, (pathText path).toList] := by
      rw [words_spaces_append, words_append hname.isWord, words_spaces_append,
        words_append_spaces (hpath.isWord hnil)]
    rw [ofCommand?, htext, inner?_brackets, Option.bind_some, hwords]
    simp [hpath.fieldsText_eq hnil]

theorem kind_text (before between behind : Nat) (name : String) (path : List String) :
    StepKind.ofCommand (text before between behind name path) = .capability := by
  have hfirst : (text before between behind name path).toList.head? = some '[' := by
    simp [text]
  have hlast : (text before between behind name path).toList.getLast? = some ']' := by
    rw [text, String.toList_append]
    exact List.getLast?_concat
  rw [StepKind.ofCommand, StepKind.isBracketed, hfirst, hlast]
  rfl

/-! ### Resolving -/

/-- The first of the places where there is a file. -/
def IsFirstFile (isFile : String → Bool) (places : List String) (program : String) : Prop :=
  ∃ front back, places = front ++ program :: back ∧ isFile program = true ∧
    ∀ p ∈ front, isFile p = false

/-- What a command resolves to, whatever files there are. -/
def resolveCommand? (registry : Registry) (d : Discovery) (join : String → String → String)
    (isFile : String → Bool) (command : String) : Option Callable :=
  (ofCommand? command).bind (·.resolve? registry d join isFile)

section

variable {registry : Registry} {d : Discovery} {join : String → String → String}
  {isFile : String → Bool} {e : Export} {c : Callable} {r : Reference}

theorem resolve?_of_registered (h : Members.get? r.name registry = some e) :
    r.resolve? registry d join isFile = (e.walk r.path).map .function := by
  simp only [resolve?, h]

theorem registered_eq_some_iff (h : Members.get? r.name registry = some e) :
    r.resolve? registry d join isFile = some c ↔
      ∃ f, e.At r.path (.function f) ∧ c = .function f := by
  rw [resolve?_of_registered h, Option.map_eq_some_iff]
  constructor
  · rintro ⟨f, hf, rfl⟩
    exact ⟨f, Export.walk_eq_some_iff.mp hf, rfl⟩
  · rintro ⟨f, hf, rfl⟩
    exact ⟨f, Export.walk_eq_some_iff.mpr hf, rfl⟩

theorem registered_eq_none_iff (h : Members.get? r.name registry = some e) :
    r.resolve? registry d join isFile = none ↔ e.LeadsNowhere r.path := by
  rw [resolve?_of_registered h, Option.map_eq_none_iff, Export.walk_eq_none_iff]

theorem find?_eq_some_iff_isFirstFile {places : List String} {program : String} :
    places.find? isFile = some program ↔ IsFirstFile isFile places program := by
  rw [List.find?_eq_some_iff_append, IsFirstFile]
  constructor
  · rintro ⟨hfile, front, back, hplaces, hfront⟩
    exact ⟨front, back, hplaces, hfile, fun p hp => by simpa using hfront p hp⟩
  · rintro ⟨front, back, hplaces, hfile, hfront⟩
    exact ⟨hfile, front, back, hplaces, fun p hp => by simpa using hfront p hp⟩

theorem resolve?_of_unregistered (h : Members.get? r.name registry = none) :
    r.resolve? registry d join isFile =
      ((d.candidates join r.name).find? isFile).map (.plugin · r.path) := by
  simp only [resolve?, h]

theorem unregistered_eq_some_iff (h : Members.get? r.name registry = none) :
    r.resolve? registry d join isFile = some c ↔
      ∃ program, IsFirstFile isFile (d.candidates join r.name) program ∧
        c = .plugin program r.path := by
  rw [resolve?_of_unregistered h, Option.map_eq_some_iff]
  constructor
  · rintro ⟨program, hfirst, rfl⟩
    exact ⟨program, find?_eq_some_iff_isFirstFile.mp hfirst, rfl⟩
  · rintro ⟨program, hfirst, rfl⟩
    exact ⟨program, find?_eq_some_iff_isFirstFile.mpr hfirst, rfl⟩

theorem unregistered_eq_none_iff (h : Members.get? r.name registry = none) :
    r.resolve? registry d join isFile = none ↔
      ∀ p ∈ d.candidates join r.name, isFile p = false := by
  rw [resolve?_of_unregistered h, Option.map_eq_none_iff, List.find?_eq_none]
  simp only [Bool.not_eq_true]

end

variable {name : String} {path : List String}

/-- **What a reference resolves to**, whatever there is registered and whatever files there are.

* A registered name means the function that stands in its tree at exactly that path, and nothing if
  the path leads nowhere; it never means a plugin.
* Any other name means the first file of that name, in the working directory if that is looked at
  and then in the plugin directories in order, with the path as its arguments; nothing, if there is
  none.

A step whose command means nothing fails for that, and changes no file. -/
theorem resolves_exactly (hname : IsName name) (hpath : IsPath path) (before between behind : Nat) :
    let command := text before between behind name path
    (∀ registry d join isFile,
      (∀ e, Members.get? name registry = some e →
        (∀ c, resolveCommand? registry d join isFile command = some c ↔
          ∃ f, e.At path (.function f) ∧ c = .function f) ∧
        (resolveCommand? registry d join isFile command = none ↔ e.LeadsNowhere path)) ∧
      (Members.get? name registry = none →
        (∀ c, resolveCommand? registry d join isFile command = some c ↔
          ∃ program, IsFirstFile isFile (d.candidates join name) program ∧
            c = .plugin program path) ∧
        (resolveCommand? registry d join isFile command = none ↔
          ∀ p ∈ d.candidates join name, isFile p = false))) ∧
    ∀ (w : Workshop) (files : Files) (params : List Json),
      resolveCommand? w.registry w.discovery Files.join (w.isFile files) command = none →
      w.dispatch files command params =
        { answer := ⟨.error { error := .unresolved command }, none⟩, files } := by
  intro command
  have hcommand : ofCommand? command = some ⟨name, path⟩ :=
    ofCommand?_text hname hpath before between behind
  constructor
  · intro registry d join isFile
    have hresolve : resolveCommand? registry d join isFile command =
        Reference.resolve? registry d join isFile ⟨name, path⟩ := by
      rw [resolveCommand?, hcommand, Option.bind_some]
    rw [hresolve]
    constructor
    · intro e he
      exact ⟨fun c => registered_eq_some_iff he, registered_eq_none_iff he⟩
    · intro hnone
      exact ⟨fun c => unregistered_eq_some_iff hnone, unregistered_eq_none_iff hnone⟩
  · intro w files params hnone
    have hkind : StepKind.ofCommand command = .capability := kind_text _ _ _ _ _
    have hresolve : w.resolve? files command = none := hnone
    rw [Workshop.dispatch, hkind, hresolve]

/-- A tree with a group inside of a group. -/
def toolbox : Export :=
  .group [("math", .group [("count", .function fun params => .ok (.num (.int params.length)))]),
    ("stop", .function fun _ => .failed "stopped")]

/-- Some directories in which a plugin may be. -/
def directories : Discovery := { workingDirectory := "/work", pluginPaths := ["/opt", "/usr"] }

/-- A nested function, a path through a function, and a plugin that is not in the first
directory. -/
theorem toolbox_resolves :
    resolveCommand? [("tools", toolbox)] directories (· ++ "/" ++ ·) (fun _ => true)
        "[  tools   math.count ]" =
      some (.function fun params => .ok (.num (.int params.length))) ∧
    resolveCommand? [("tools", toolbox)] directories (· ++ "/" ++ ·) (fun _ => true)
        "[tools stop.now]" = none ∧
    resolveCommand? [("tools", toolbox)] directories (· ++ "/" ++ ·) (fun p => p != "/work/other")
        "[other a..b]" = some (.plugin "/opt/other" ["a", "", "b"]) := by
  have htools : IsName "tools" := by decide
  have hother : IsName "other" := by decide
  have hcount : IsPath ["math", "count"] := by decide
  have hstop : IsPath ["stop", "now"] := by decide
  have hempty : IsPath ["a", "", "b"] := by decide
  refine ⟨?_, ?_, ?_⟩
  · obtain ⟨hregistered, -⟩ := (resolves_exactly htools hcount 2 2 1).1 [("tools", toolbox)]
      directories (· ++ "/" ++ ·) fun _ => true
    exact ((hregistered toolbox rfl).1 _).mpr ⟨_, .inside rfl (.inside rfl (.here _)), rfl⟩
  · obtain ⟨hregistered, -⟩ := (resolves_exactly htools hstop 0 0 0).1 [("tools", toolbox)]
      directories (· ++ "/" ++ ·) fun _ => true
    have hpath : ["stop", "now"] = ["stop"] ++ "now" :: [] := rfl
    exact (hregistered toolbox rfl).2.mpr (.through hpath (.inside rfl (.here _)))
  · obtain ⟨-, hunregistered⟩ := (resolves_exactly hother hempty 0 0 0).1 [("tools", toolbox)]
      directories (· ++ "/" ++ ·) fun p => p != "/work/other"
    exact ((hunregistered rfl).1 _).mpr
      ⟨_, ⟨["/work/other"], ["/usr/other"], rfl, by decide, by decide⟩, rfl⟩

end Reference

end CommandChain
