import CommandChain.Proofs.Chain.Watched
import CommandChain.Proofs.Text.Joined

/-!
# The spellings of a leaf

A leaf with input tokens, a command and a path for its result can be written as an object, under any
of the names of its three fields and with the tokens as a list or as one text `(t₁, …, tₙ)`, or as
the text `(t₁, …, tₙ) -> command -> out`. All of them are read as the same leaf (`leaf_spellings`).

For the texts to be cut where they were joined, no comma may count in a token (`IsToken`) and no
arrow in the command and in the path (`IsPart`). Between the parentheses the tokens may hold arrows:
there no arrow counts, since brackets are closed in a token only where they were opened
(`keeps_tokens`). -/

namespace CommandChain

/-- A text that can be cut off again where it was joined with others by the delimiter `d`. -/
structure IsPiece (d : List Char) (t : String) : Prop where
  nonempty : t ≠ ""
  trimmed : Text.trimmed t = t
  /-- Behind the text the scan is outside of all brackets and quotes. -/
  closed : Text.Scan.start.run t.toList = .start
  /-- No delimiter counts. -/
  single : Text.splitTop d t.toList = [t.toList]

instance (d : List Char) (t : String) : Decidable (IsPiece d t) :=
  decidable_of_iff (t ≠ "" ∧ Text.trimmed t = t ∧ Text.Scan.start.run t.toList = .start ∧
      Text.splitTop d t.toList = [t.toList])
    ⟨fun ⟨h₁, h₂, h₃, h₄⟩ => ⟨h₁, h₂, h₃, h₄⟩, fun ⟨h₁, h₂, h₃, h₄⟩ => ⟨h₁, h₂, h₃, h₄⟩⟩

/-- A text that can stand in a list of tokens. -/
structure IsToken (t : String) : Prop extends IsPiece [','] t where
  /-- No bracket is closed below its opening. -/
  nested : Text.Scan.start.Nested t.toList

instance (t : String) : Decidable (IsToken t) :=
  decidable_of_iff (IsPiece [','] t ∧ Text.Scan.start.Nested t.toList)
    ⟨fun ⟨h₁, h₂⟩ => ⟨h₁, h₂⟩, fun ⟨h₁, h₂⟩ => ⟨h₁, h₂⟩⟩

/-- A text that can stand as the command or the path between arrows. -/
structure IsPart (t : String) : Prop extends IsPiece ['-', '>'] t where
  unquoted : Text.isQuoted t = false

instance (t : String) : Decidable (IsPart t) :=
  decidable_of_iff (IsPiece ['-', '>'] t ∧ Text.isQuoted t = false)
    ⟨fun ⟨h₁, h₂⟩ => ⟨h₁, h₂⟩, fun ⟨h₁, h₂⟩ => ⟨h₁, h₂⟩⟩

/-- Tokens as one text. -/
def inputText (ts : List String) : String := "(" ++ String.intercalate ", " ts ++ ")"

/-- A leaf as one text. -/
def arrowText (ts : List String) (c o : String) : String :=
  inputText ts ++ " -> " ++ c ++ " -> " ++ o

variable {ts : List String} {c o t : String} {d u v : List Char}

theorem IsPiece.clears (h : IsPiece d t) (hd : d ≠ []) : Text.Scan.start.Clears d [] t.toList :=
  (Text.splitTop_eq_singleton_iff hd).mp h.single

theorem IsPiece.splitTop_blank (h : IsPiece d t) (hd : d ≠ []) (hblank : d.head? ≠ some ' ') :
    Text.splitTop d (' ' :: t.toList) = [' ' :: t.toList] :=
  (Text.splitTop_eq_singleton_iff hd).mpr ((Text.Scan.clears_cons hd hblank).mpr (h.clears hd))

/-! ### The tokens -/

/-- The tokens with the commas between them. -/
def tokenChars (ts : List String) : List Char := [',', ' '].intercalate (ts.map String.toList)

theorem toList_inputText (ts : List String) :
    (inputText ts).toList = '(' :: (tokenChars ts ++ [')']) := by
  have hopen : "(".toList = ['('] := rfl
  have hclose : ")".toList = [')'] := rfl
  have hcomma : ", ".toList = [',', ' '] := rfl
  unfold inputText tokenChars
  rw [String.toList_append, String.toList_append, String.toList_intercalate, hopen, hclose, hcomma,
    List.append_assoc, List.singleton_append]

theorem tokenChars_cons (t : String) (ts : List String) :
    tokenChars (t :: ts) = [','].intercalate (t.toList :: ts.map fun u => ' ' :: u.toList) := by
  induction ts generalizing t with
  | nil => rfl
  | cons u ts ih =>
    have hrest : [','].intercalate ((' ' :: u.toList) :: ts.map fun u => ' ' :: u.toList) =
        ' ' :: tokenChars (u :: ts) := by
      rw [ih]
      cases ts <;> simp [List.intercalate_cons_cons]
    rw [List.map_cons, List.intercalate_cons_cons, hrest]
    simp [tokenChars, List.intercalate_cons_cons]

theorem splitTop_tokenChars (h : ∀ u ∈ t :: ts, IsToken u) :
    Text.splitTop [','] (tokenChars (t :: ts)) = t.toList :: ts.map fun u => ' ' :: u.toList := by
  obtain ⟨ht, hts⟩ := List.forall_mem_cons.mp h
  rw [tokenChars_cons]
  refine Text.splitTop_intercalate (List.cons_ne_nil _ _)
    (List.forall_mem_cons.mpr ⟨⟨ht.single, ht.closed⟩, fun p hp => ?_⟩)
  obtain ⟨u, hu, rfl⟩ := List.mem_map.mp hp
  exact ⟨(hts u hu).splitTop_blank (by simp) (by simp), (hts u hu).closed⟩

theorem trim_inputText (ts : List String) :
    Text.trim (inputText ts).toList = (inputText ts).toList := by
  rw [toList_inputText]
  exact Text.trim_eq_self (Text.isTrimmed_of_ends (by decide) (by decide) _)

/-- **The text of some tokens is read as the tokens.** -/
theorem splitIns_inputText (h : ∀ t ∈ ts, IsToken t) : splitIns (inputText ts).toList = ts := by
  have hinside : stripParentheses (inputText ts).toList = tokenChars ts := by
    rw [toList_inputText]
    simp [stripParentheses]
  unfold splitIns
  rw [trim_inputText, hinside]
  dsimp only
  cases ts with
  | nil => rfl
  | cons t ts =>
    obtain ⟨ht, hts⟩ := List.forall_mem_cons.mp h
    have htrims : (Text.splitTop [','] (tokenChars (t :: ts))).map Text.trim =
        (t :: ts).map String.toList := by
      rw [splitTop_tokenChars h, List.map_cons, List.map_cons,
        Text.trim_toList ht.trimmed, List.map_map]
      refine congrArg _ (List.map_congr_left fun u hu => ?_)
      exact (Text.trim_blank_cons (by decide) _).trans (Text.trim_toList (hts u hu).trimmed)
    have hkeep : ∀ p ∈ (t :: ts).map String.toList, (!p.isEmpty) = true := by
      intro p hp
      obtain ⟨u, hu, rfl⟩ := List.mem_map.mp hp
      simpa using (h u hu).nonempty
    rw [htrims, List.filter_eq_self.mpr hkeep]
    exact Text.map_ofList_toList _

/-- Between the parentheses the scan is inside of a bracket throughout. -/
theorem keeps_tokens (h : ∀ t ∈ ts, IsToken t) : (Text.Scan.bare 1).Keeps (tokenChars ts) := by
  refine Text.Scan.Keeps.intercalate ⟨⟨rfl, rfl, trivial⟩, rfl⟩ fun p hp => ?_
  obtain ⟨u, hu, rfl⟩ := List.mem_map.mp hp
  obtain ⟨hrun, hcovers⟩ := (h u hu).nested.deeper
  rw [(h u hu).closed] at hrun
  exact ⟨hcovers, hrun⟩

/-! ### The arrows -/

theorem IsPart.part_eq (h : IsPart t) : Arrow.part t.toList = t.toList := by
  have hnone : Text.unquote? t.toList = none := by simpa [Text.isQuoted] using h.unquoted
  rw [Arrow.part, Text.trim_toList h.trimmed, Text.unquote, hnone]
  rfl

theorem clears_append_blank (h : Text.Scan.start.Clears d [] u) (hd : d ≠ []) (hblank : ' ' ∉ d) :
    Text.Scan.start.Clears d v (u ++ [' ']) := by
  refine Text.Scan.clears_append.mpr ⟨h.before hblank, ?_⟩
  exact (Text.Scan.clears_cons hd fun e => hblank (List.mem_of_mem_head? e)).mpr trivial

theorem run_append_blank (h : Text.Scan.start.run u = .start) :
    Text.Scan.start.run (u ++ [' ']) = .start := by
  rw [Text.Scan.run_append, h]
  rfl

theorem clears_inputText (h : ∀ t ∈ ts, IsToken t) (hd : d ≠ []) (hopen : d.head? ≠ some '(')
    (hblank : ' ' ∉ d) :
    Text.Scan.start.Clears d v ((inputText ts).toList ++ [' ']) ∧
      Text.Scan.start.run ((inputText ts).toList ++ [' ']) = .start := by
  obtain ⟨hclears, hrun⟩ := (keeps_tokens h).parenthesized (v := []) hd hopen
  rw [← toList_inputText] at hclears hrun
  exact ⟨clears_append_blank hclears hd hblank, run_append_blank hrun⟩

theorem clears_padded (h : Text.Scan.start.Clears d [] u) (hd : d ≠ []) (hblank : ' ' ∉ d) :
    Text.Scan.start.Clears d v (' ' :: (u ++ [' '])) :=
  (Text.Scan.clears_cons hd fun e => hblank (List.mem_of_mem_head? e)).mpr
    (clears_append_blank h hd hblank)

theorem run_padded (h : Text.Scan.start.run u = .start) :
    Text.Scan.start.run (' ' :: (u ++ [' '])) = .start :=
  run_append_blank h

theorem IsPart.clears_out (h : IsPart o) :
    Text.Scan.start.Clears ['-', '-', '>'] [] (['-', '>'] ++ ' ' :: o.toList) := by
  refine Text.Scan.clears_append.mpr ⟨by simp [Text.Scan.Clears], ?_⟩
  exact (Text.Scan.clears_cons (by simp) (by simp)).mpr (h.clears (by simp)).longArrow

theorem toList_arrowText (ts : List String) (c o : String) :
    (arrowText ts c o).toList = ((inputText ts).toList ++ [' ']) ++
      (['-', '>'] ++ (' ' :: (c.toList ++ [' ']) ++ (['-', '>'] ++ ' ' :: o.toList))) := by
  simp [arrowText]

theorem splitTop_arrowText (hts : ∀ t ∈ ts, IsToken t) (hc : IsPart c) (ho : IsPart o) :
    Text.splitTop ['-', '>'] (arrowText ts c o).toList =
      [(inputText ts).toList ++ [' '], ' ' :: (c.toList ++ [' ']), ' ' :: o.toList] := by
  have hne : ['-', '>'] ≠ [] := List.cons_ne_nil _ _
  obtain ⟨hfirst, hrun⟩ := clears_inputText hts hne (by simp) (by simp)
  rw [toList_arrowText, Text.splitTop_append hne hfirst hrun,
    Text.splitTop_append hne (clears_padded (hc.clears hne) hne (by simp)) (run_padded hc.closed),
    ho.splitTop_blank hne (by simp)]

theorem splitTop_long_arrowText (hts : ∀ t ∈ ts, IsToken t) (hc : IsPart c) (ho : IsPart o) :
    Text.splitTop ['-', '-', '>'] (arrowText ts c o).toList = [(arrowText ts c o).toList] := by
  have hne : ['-', '-', '>'] ≠ [] := List.cons_ne_nil _ _
  have hcommand := clears_padded (v := ['-', '>'] ++ ' ' :: o.toList ++ [])
    (hc.clears (by simp)).longArrow hne (by simp)
  have hshort (w : List Char) : Text.Scan.start.Clears ['-', '-', '>'] w ['-', '>'] := by
    simp [Text.Scan.Clears]
  obtain ⟨hfirst, hrun⟩ := clears_inputText hts hne (by simp) (by simp)
  rw [Text.splitTop_eq_singleton_iff hne, toList_arrowText]
  refine Text.Scan.clears_append.mpr ⟨hfirst, ?_⟩
  rw [hrun]
  refine Text.Scan.clears_append.mpr ⟨hshort _, Text.Scan.clears_append.mpr ⟨hcommand, ?_⟩⟩
  have hend : (Text.Scan.start.run ['-', '>']).run (' ' :: (c.toList ++ [' '])) = .start :=
    run_padded hc.closed
  rw [hend]
  exact ho.clears_out

/-- **The text of a leaf is taken apart into what it was made of.** -/
theorem ofChars_arrowText (hts : ∀ t ∈ ts, IsToken t) (hc : IsPart c) (ho : IsPart o) :
    Arrow.ofChars (arrowText ts c o).toList =
      ⟨some (inputText ts).toList, c.toList, some o.toList⟩ := by
  have hfirst : Arrow.part ((inputText ts).toList ++ [' ']) = (inputText ts).toList := by
    rw [Arrow.part, Text.trim_append_blank (by decide), trim_inputText, toList_inputText]
    rfl
  have hsecond : Arrow.part (' ' :: (c.toList ++ [' '])) = c.toList := by
    rw [Arrow.part, Text.trim_blank_cons (by decide), Text.trim_append_blank (by decide)]
    exact hc.part_eq
  have hthird : Arrow.part (' ' :: o.toList) = o.toList := by
    rw [Arrow.part, Text.trim_blank_cons (by decide)]
    exact ho.part_eq
  unfold Arrow.ofChars
  rw [splitTop_long_arrowText hts hc ho, splitTop_arrowText hts hc ho]
  simp only [List.map_cons, List.map_nil, hfirst, hsecond, hthird]

/-! ### The leaf -/

theorem Draft.node_eq {ins : Option Json} (hins : tokens ins = ts) (ho : o ≠ "") :
    Draft.node { command := some (.str c), ins, out := some (.str o) } =
      .leaf { ins := ts, out := o } c := by
  have hmode : Mode.ofText "" = .series := by decide
  simp only [node, info, hins, outPath_str ho, Option.map_none, Option.getD_none, hmode,
    Json.plainText]

/-- Under any of the names of its fields an object has the same draft. -/
theorem Draft.ofMembers_names {kc ki ko : String} {command ins out : Json}
    (hc : kc ∈ ["command", "process"]) (hi : ki ∈ ["ins", "input", "inputs"])
    (ho : ko ∈ ["out", "output", "outs", "outputs"]) :
    ofMembers [(kc, command), (ki, ins), (ko, out)] =
      { command := some command, ins := some ins, out := some out } ∧
    chains [(kc, command), (ki, ins), (ko, out)] = none ∧
    Members.get? "error" [(kc, command), (ki, ins), (ko, out)] = none := by
  simp only [List.mem_cons, List.not_mem_nil, or_false] at hc hi ho
  rcases hc with rfl | rfl <;> rcases hi with rfl | rfl | rfl <;>
    rcases ho with rfl | rfl | rfl | rfl <;> exact ⟨rfl, rfl, rfl⟩

/-- **All spellings of a leaf agree.** The object of a command, its inputs and its path, under any
of their names, in any order, and with the inputs as a list or as one text, and the text with arrows
are all read as one and the same leaf. -/
theorem leaf_spellings (hts : ∀ t ∈ ts, IsToken t) (hc : IsPart c) (ho : IsPart o) :
    (∀ kc ∈ ["command", "process"], ∀ ki ∈ ["ins", "input", "inputs"],
      ∀ ko ∈ ["out", "output", "outs", "outputs"],
      ∀ ins ∈ [Json.arr (ts.map .str), .str (inputText ts)],
      ∀ ms, Members.Same ms [(kc, .str c), (ki, ins), (ko, .str o)] →
        Node.ofJson (.obj ms) = .ok (.leaf { ins := ts, out := o } c)) ∧
    Node.ofJson (.str (arrowText ts c o)) = .ok (.leaf { ins := ts, out := o } c) := by
  have htext : Draft.tokens (some (.str (inputText ts))) = ts := splitIns_inputText hts
  have hlist : Draft.tokens (some (.arr (ts.map .str))) = ts :=
    Draft.tokens_arr fun t ht => (hts t ht).trimmed
  have hne : c.toList ≠ [] := fun e => hc.nonempty (String.toList_inj.mp e)
  constructor
  · intro kc hkc ki hki ko hko ins hins ms hms
    have htokens : Draft.tokens (some ins) = ts := by
      rcases List.mem_pair.mp hins with rfl | rfl
      · exact hlist
      · exact htext
    obtain ⟨hdraft, hchains, herror⟩ :=
      @Draft.ofMembers_names kc ki ko (.str c) ins (.str o) hkc hki hko
    rw [Node.ofJson_of_fields ((Draft.chains_congr hms).trans hchains) ((hms "error").trans herror),
      Draft.ofMembers_congr hms, hdraft,
      Draft.withArrow_of_isPlain rfl hne (Arrow.isPlain_of_splitTop hc.single),
      Draft.node_eq htokens ho.nonempty]
  · have hdraft : Draft.withArrow { command := some (.str (arrowText ts c o)) } =
        { command := some (.str c), ins := some (.str (inputText ts)), out := some (.str o) } := by
      simp [Draft.withArrow, Json.plainText, ofChars_arrowText hts hc ho, Arrow.commandText, hne]
    unfold Node.ofJson
    rw [Node.ofCommand, hdraft, Draft.node_eq htext ho.nonempty]

/-- Tokens with a comma between brackets and quotes and with an opening bracket and an arrow between
quotes, and a command with a quoted arrow. -/
theorem nested_leaf_spellings :
    Node.ofJson (.str "(a.b, [x, 'y, z'], \"(q -> r\") -> f('a -> b') -> res.x") =
        .ok (.leaf { ins := ["a.b", "[x, 'y, z']", "\"(q -> r\""], out := "res.x" } "f('a -> b')") ∧
      Node.ofJson (.obj [("command", .str "f('a -> b')"),
          ("inputs", .str "(a.b, [x, 'y, z'], \"(q -> r\")"), ("outs", .str "res.x")]) =
        .ok
          (.leaf { ins := ["a.b", "[x, 'y, z']", "\"(q -> r\""], out := "res.x" }
            "f('a -> b')") := by
  obtain ⟨hobject, htext⟩ := @leaf_spellings ["a.b", "[x, 'y, z']", "\"(q -> r\""] "f('a -> b')"
    "res.x" (by decide) (by decide) (by decide)
  exact ⟨htext, hobject "command" (by decide) "inputs" (by decide) "outs" (by decide) _
    (List.mem_pair.mpr (.inr rfl)) _ (.refl _)⟩

end CommandChain
