import CommandChain.Condition
import CommandChain.Proofs.Chain.Fields
import CommandChain.Proofs.Expr.Parsing
import CommandChain.Proofs.Json.Printed
import CommandChain.Proofs.Json.Regular

/-!
# JSON text is an expression

JSON text without blanks has a derivation in the grammar of expressions, and the expression that it
denotes has in every scope the value of the JSON value (`evaluate_text`). A negative number is a
minus before a numeral, strings and names are string literals, and an object is built by inserting
its members one after the other.

`Writes d v` says of a derivation all that is needed wherever JSON text stands inside a longer
text. -/

namespace CommandChain

namespace Syntax

/-! ### Leaves without malformed escapes -/

section

variable {rest : List Char}

theorem noWordChar_nil : NoWordChar [] := by simp [NoWordChar]

theorem noWordChar_cons {c : Char} (hc : Token.isWordChar c = false) : NoWordChar (c :: rest) := by
  rintro _ ⟨⟩
  exact hc

end

theorem content_quoted (s : String) : Token.content (s.toList.flatMap Json.escapeChar) = s := by
  rw [Token.content, Json.decode_quoted]
  exact String.ofList_toList

theorem fault?_quoted (s : List Char) :
    (Terminal.string '"' (s.flatMap Json.escapeChar)).token.fault? = none := by
  simp only [Terminal.token, Token.fault?, Json.decode_quoted]

/-- The text writes the leaves, and none of them has a malformed escape. -/
structure Spells (xs : List Terminal) (cs : List Char) : Prop where
  spelled : Spelled xs cs
  faultless : ∀ x ∈ xs, x.token.fault? = none

namespace Spells

variable {x : Terminal} {xs ys : List Terminal} {cs ds : List Char}

theorem nil : Spells [] [] := ⟨.nil (by simp), by simp⟩

theorem append (h : Spells xs cs) (h' : Spells ys ds) (hds : NoWordChar ds) :
    Spells (xs ++ ys) (cs ++ ds) :=
  ⟨h.spelled.append h'.spelled hds, List.forall_mem_append.mpr ⟨h.faultless, h'.faultless⟩⟩

theorem blanks (h : Spells xs ds) (hcs : ∀ c ∈ cs, Text.isSpace c = true) : Spells xs (cs ++ ds) :=
  ⟨h.spelled.blanks hcs, h.faultless⟩

theorem leaf (rule : x.Rule cs) (hx : x.token.fault? = none) (h : Spells xs cs) :
    Spells (x :: xs) (x.chars ++ cs) :=
  ⟨Spelled.cons (List.forall_mem_nil _) rule h.spelled, List.forall_mem_cons.mpr ⟨hx, h.faultless⟩⟩

theorem sym (s : Punctuation) (h : Spells xs cs) : Spells (.sym s :: xs) (s.chars ++ cs) :=
  h.leaf trivial rfl

theorem keyword {w : String} (hw : w ∈ keywords) : Spells [.keyword w] w.toList := by
  rw [← List.append_nil w.toList]
  exact nil.leaf (x := .keyword w) ⟨hw, noWordChar_nil⟩ rfl

theorem number {n : Numeral} (hn : NumberRule n) : Spells [.number n] n.chars := by
  rw [← List.append_nil n.chars]
  exact nil.leaf (x := .number n) hn rfl

theorem quoted (s : List Char) (h : Spells xs cs) :
    Spells (.string '"' (s.flatMap Json.escapeChar) :: xs) (Json.quoted s ++ cs) :=
  h.leaf (x := .string '"' _) ⟨.inl rfl, Json.contentRule_quoted s⟩ (fault?_quoted s)

end Spells

/-! ### Derivations of JSON text -/

/-- The JSON text of the value spells the derivation, of which the expression has that value. -/
structure Writes (d : Expression) (v : Json) : Prop extends Spells d.terminals v.compact where
  value : ∀ caller here scope, d.toExpr.evalWith caller here scope = .ok (.ofJson v)

/-! #### Scalars -/

open Expression (ofUnary ofPrimary)

theorem writes_keyword {p : Primary} {w : String} {v : Json} (hw : w ∈ keywords)
    (hp : p.terminals = [.keyword w]) (hv : v.compact = w.toList)
    (hvalue : ∀ caller here scope, p.toExpr.evalWith caller here scope = .ok (.ofJson v)) :
    Writes (ofPrimary p) v := by
  refine ⟨?_, ?_⟩
  · rw [Expression.terminals_ofPrimary, hp, hv]
    exact .keyword hw
  · rwa [Expression.toExpr_ofPrimary]

theorem writes_number {n : Number} (h : n.ReadsBack) : ∃ d, Writes d (.num n) := by
  obtain ⟨num, hrule, ⟨hchars, hvalue⟩ | ⟨hchars, hvalue⟩⟩ := h.exists_numeral
  · refine ⟨ofPrimary (.number num), ?_, fun caller here scope => ?_⟩
    · rw [Expression.terminals_ofPrimary, Json.compact, hchars]
      exact .number hrule
    · rw [Expression.toExpr_ofPrimary, Primary.toExpr, Expr.evalWith, hvalue, Value.ofJson]
  · refine ⟨ofUnary (.op .neg (.base (.mk (.number num) .nil))), ?_, fun caller here scope => ?_⟩
    · rw [Expression.terminals_ofUnary, Json.compact, hchars]
      exact (Spells.number hrule).sym .minus
    · rw [Expression.toExpr_ofUnary, Value.ofJson, ← hvalue]
      rfl

theorem writes_string (s : String) :
    Writes (ofPrimary (.string '"' (s.toList.flatMap Json.escapeChar))) (.str s) := by
  refine ⟨?_, fun caller here scope => ?_⟩
  · rw [Expression.terminals_ofPrimary, Json.compact, ← List.append_nil (Json.quoted _)]
    exact .quoted s.toList .nil
  · rw [Expression.toExpr_ofPrimary, Primary.toExpr, content_quoted, Expr.evalWith, Value.ofJson]

/-! #### Arrays and arguments -/

/-- The JSON text of some values, each behind a comma and some blanks. -/
def moreItems (blanks : List Char) : List Json → List Char
  | [] => []
  | v :: vs => ',' :: (blanks ++ (v.compact ++ moreItems blanks vs))

theorem compactMore_eq (vs : List Json) : Json.compactMore vs = moreItems [] vs := by
  induction vs with
  | nil => rfl
  | cons v vs ih => rw [Json.compactMore, moreItems, ih, List.nil_append]

/-- The items after the first of an array or of a list of arguments are derived, and have the values
of the JSON values. -/
structure WritesItems (blanks : List Char) (es : Items) (vs : List Json) : Prop
    extends Spells es.terminals (moreItems blanks vs) where
  value : ∀ caller here i scope,
    Expr.evalItems caller here i scope es.toExprs = .ok (Value.ofItems vs)

theorem noWordChar_moreItems (blanks : List Char) (vs : List Json) :
    NoWordChar (moreItems blanks vs) := by
  cases vs with
  | nil => exact noWordChar_nil
  | cons v vs => exact noWordChar_cons (by decide)

section

variable {blanks : List Char} (hblanks : ∀ c ∈ blanks, Text.isSpace c = true)

include hblanks

theorem WritesItems.cons {e : Expression} {v : Json} {es : Items} {vs : List Json} (h : Writes e v)
    (hs : WritesItems blanks es vs) : WritesItems blanks (.cons e es) (v :: vs) where
  toSpells :=
    ((h.toSpells.append hs.toSpells (noWordChar_moreItems blanks vs)).blanks hblanks).sym .comma
  value caller here i scope := by
    simp only [Items.toExprs, Expr.evalItems, h.value, hs.value, Value.ofItems]
    rfl

theorem exists_writesItems {vs : List Json} (h : ∀ v ∈ vs, ∃ d, Writes d v) :
    ∃ es, WritesItems blanks es vs := by
  induction vs with
  | nil => exact ⟨.nil, .nil, fun _ _ _ _ => rfl⟩
  | cons v vs ih =>
    obtain ⟨⟨e, he⟩, hvs⟩ := List.forall_mem_cons.mp h
    obtain ⟨es, hes⟩ := ih hvs
    exact ⟨.cons e es, hes.cons hblanks he⟩

end

theorem writes_array {vs : List Json} (h : ∀ v ∈ vs, ∃ d, Writes d v) :
    ∃ d, Writes d (.arr vs) := by
  cases vs with
  | nil =>
    refine ⟨ofPrimary .emptyArray, ?_, fun caller here scope => ?_⟩
    · rw [Expression.terminals_ofPrimary]
      exact (Spells.nil.sym .bracketR).sym .bracketL
    · rw [Expression.toExpr_ofPrimary]
      rfl
  | cons v vs =>
    obtain ⟨⟨e, he⟩, hvs⟩ := List.forall_mem_cons.mp h
    obtain ⟨es, hes⟩ := exists_writesItems (List.forall_mem_nil _) hvs
    refine ⟨ofPrimary (.array e es false), ?_, fun caller here scope => ?_⟩
    · have hend : NoWordChar [']'] := noWordChar_cons (by decide)
      have hclose := hes.toSpells.append (Spells.nil.sym .bracketR) hend
      have hitems := he.toSpells.append hclose ((noWordChar_moreItems [] vs).append hend)
      rw [Expression.terminals_ofPrimary, Json.compact, Json.compactItems, compactMore_eq,
        List.append_assoc]
      exact hitems.sym .bracketL
    · rw [Expression.toExpr_ofPrimary]
      simp only [Primary.toExpr, Expr.evalWith, Expr.evalItems, he.value, hes.value, Value.ofJson,
        Value.ofItems]
      rfl

/-! #### Objects -/

/-- The name of a member as the key of a field. -/
def keyOf (k : String) : Key := .string '"' (k.toList.flatMap Json.escapeChar)

@[simp] theorem name_keyOf (k : String) : (keyOf k).name = k := content_quoted k

/-- The fields after the first of an object are derived, and add the members of a JSON object behind
members whose names come before. -/
structure WritesFields (fs : Fields) (ms : Members Json) : Prop
    extends Spells fs.terminals (Json.compactMoreMembers ms) where
  value : ∀ caller here i scope before, (∀ m ∈ before, ∀ m' ∈ ms, m.1 < m'.1) →
    Expr.evalFields caller here i scope before fs.toFields = .ok (before ++ Value.ofMembers ms)

theorem noWordChar_compactMoreMembers (ms : Members Json) :
    NoWordChar (Json.compactMoreMembers ms) := by
  cases ms with
  | nil => exact noWordChar_nil
  | cons m ms => exact noWordChar_cons (by decide)

/-- The leaves of a field, and of what comes after it. -/
theorem Spells.field {k : String} {e : Expression} {v : Json} {xs : List Terminal} {cs : List Char}
    (he : Writes e v) (h : Spells xs cs) (hcs : NoWordChar cs) :
    Spells ((keyOf k).terminal :: .sym .colon :: (e.terminals ++ xs))
      (Json.quoted k.toList ++ ':' :: (v.compact ++ cs)) :=
  ((he.toSpells.append h hcs).sym .colon).quoted k.toList

theorem WritesFields.cons {k : String} {e : Expression} {v : Json} {fs : Fields} {ms : Members Json}
    (he : Writes e v) (hfs : WritesFields fs ms) (hk : ∀ m ∈ ms, k < m.1) :
    WritesFields (.cons (keyOf k) e fs) ((k, v) :: ms) where
  toSpells := (Spells.field he hfs.toSpells (noWordChar_compactMoreMembers ms)).sym .comma
  value caller here i scope before hbefore := by
    have hlast : Members.insert k (Value.ofJson v) before = before ++ [(k, .ofJson v)] :=
      Members.insert_of_forall_lt (fun m hm => hbefore m hm (k, v) List.mem_cons_self) _
    have hmore : ∀ m ∈ before ++ [(k, Value.ofJson v)], ∀ m' ∈ ms, m.1 < m'.1 :=
      List.forall_mem_append.mpr ⟨fun m hm m' hm' => hbefore m hm m' (List.mem_cons_of_mem _ hm'),
        by simpa using hk⟩
    simp only [Fields.toFields, name_keyOf, Expr.evalFields, he.value]
    show Expr.evalFields caller here (i + 1) scope (Members.insert k (Value.ofJson v) before) _ = _
    rw [hlast, hfs.value _ _ _ _ _ hmore, List.append_assoc]
    rfl

theorem exists_writesFields {ms : Members Json} (hsorted : ms.Sorted)
    (h : ∀ m ∈ ms, ∃ d, Writes d m.2) : ∃ fs, WritesFields fs ms := by
  induction ms with
  | nil => exact ⟨.nil, .nil, fun _ _ _ _ before _ => by simp [Fields.toFields, Expr.evalFields,
      Value.ofMembers]⟩
  | cons m ms ih =>
    obtain ⟨⟨e, he⟩, hms⟩ := List.forall_mem_cons.mp h
    obtain ⟨hfirst, hmore⟩ := List.pairwise_cons.mp hsorted
    obtain ⟨fs, hfs⟩ := ih hmore hms
    exact ⟨_, hfs.cons he hfirst⟩

theorem writes_object {ms : Members Json} (hsorted : ms.Sorted) (h : ∀ m ∈ ms, ∃ d, Writes d m.2) :
    ∃ d, Writes d (.obj ms) := by
  cases ms with
  | nil =>
    refine ⟨ofPrimary .emptyObject, ?_, fun caller here scope => ?_⟩
    · rw [Expression.terminals_ofPrimary]
      exact (Spells.nil.sym .braceR).sym .braceL
    · rw [Expression.toExpr_ofPrimary]
      rfl
  | cons m ms =>
    obtain ⟨k, v⟩ := m
    obtain ⟨⟨e, he⟩, hms⟩ := List.forall_mem_cons.mp h
    obtain ⟨hfirst, hmore⟩ := List.pairwise_cons.mp hsorted
    obtain ⟨fs, hfs⟩ := exists_writesFields hmore hms
    refine ⟨ofPrimary (.object (keyOf k) e fs false), ?_, fun caller here scope => ?_⟩
    · have hend : NoWordChar ['}'] := noWordChar_cons (by decide)
      have hclose : Spells (fs.terminals ++ [.sym .braceR]) (Json.compactMoreMembers ms ++ ['}']) :=
        hfs.toSpells.append (Spells.nil.sym .braceR) hend
      have hfields :=
        Spells.field (k := k) he hclose ((noWordChar_compactMoreMembers ms).append hend)
      rw [Expression.terminals_ofPrimary, Json.compact, Json.compactMembers, List.append_assoc,
        List.cons_append, List.append_assoc]
      exact hfields.sym .braceL
    · have hvalue := hfs.value caller here 1 scope [(k, .ofJson v)] (by simpa using hfirst)
      rw [Expression.toExpr_ofPrimary]
      simp only [Primary.toExpr, name_keyOf, Expr.evalWith, Expr.evalFields, he.value, Value.ofJson,
        Value.ofMembers]
      show (Expr.evalFields caller here 1 scope [(k, .ofJson v)] _ >>= _) = _
      rw [hvalue]
      rfl

/-- Every JSON value whose numbers read back is written by a derivation. -/
theorem exists_writes {v : Json} (hv : v.Regular Number.ReadsBack) : ∃ d, Writes d v := by
  induction hv with
  | null => exact ⟨_, writes_keyword (p := .null) (by decide) rfl rfl fun _ _ _ => rfl⟩
  | bool b =>
    cases b with
    | true => exact ⟨_, writes_keyword (p := .boolean true) (by decide) rfl rfl fun _ _ _ => rfl⟩
    | false => exact ⟨_, writes_keyword (p := .boolean false) (by decide) rfl rfl fun _ _ _ => rfl⟩
  | num hn => exact writes_number hn
  | str s => exact ⟨_, writes_string s⟩
  | arr hitems ih => exact writes_array ih
  | obj hsorted hms ih => exact writes_object hsorted ih

/-! ### What JSON text evaluates to -/

/-- A text that spells a derivation is parsed to the expression of that derivation. -/
theorem Spells.parse {d : Expression} {t : String} (h : Spells d.terminals t.toList) :
    Expr.parse t = .ok d.toExpr := by
  have hfault : d.fault? = none := by
    simpa [Expression.fault?, List.findSome?_eq_none_iff] using h.faultless
  rw [parse_of_derives (d := d) h.spelled, hfault]

/-- Every text that is parsed spells a derivation. -/
theorem exists_spells {t : String} {e : Expr} (h : Expr.parse t = .ok e) :
    ∃ d : Expression, Spells d.terminals t.toList ∧ d.toExpr = e := by
  obtain ⟨d, hd, rfl⟩ := exists_derives_of_ok h
  have hfault : d.fault? = none := by
    rw [parse_of_derives hd] at h
    split at h
    · cases h
    · assumption
  exact ⟨d, ⟨hd, by simpa [Expression.fault?, List.findSome?_eq_none_iff] using hfault⟩, rfl⟩

end Syntax

theorem Expr.evaluate_text {v : Json} (hv : v.Regular Number.ReadsBack) (scope : Scope) :
    Expr.evaluate v.text scope = .ok (.ofJson v) := by
  obtain ⟨d, hd⟩ := Syntax.exists_writes hv
  have hparse : Expr.parse v.text = .ok d.toExpr := by
    refine Syntax.Spells.parse ?_
    rw [Json.text, String.toList_ofList]
    exact hd.toSpells
  have heval : Expr.eval scope d.toExpr = .ok (.ofJson v) := hd.value _ _ _
  simp only [Expr.evaluate, hparse, heval, Except.mapError]

theorem Value.isTruthy_ofJson (v : Json) : (Value.ofJson v).isTruthy = v.isTruthy := by
  cases v <;> rfl

/-- A JSON value that is written where a condition stands holds just if it counts as true. -/
theorem Condition.holds_plainText {v : Json} (hv : v.Regular Number.ReadsBack)
    (hstr : ∀ s, v ≠ .str s) (hnull : v ≠ .null) (s : Store) :
    Condition.holds v.plainText s = v.isTruthy := by
  have htext : v.plainText = v.text := by
    cases v with
    | str s => exact absurd rfl (hstr s)
    | null => exact absurd rfl hnull
    | bool | num | arr | obj => rfl
  rw [Condition.holds, Condition.check, htext, Expr.evaluate_text hv]
  exact Value.isTruthy_ofJson v

/-! ### Conditions of nodes -/

/-- The conditions of a node are those that the fields of its object give. -/
theorem Node.conditions_of_ofJson {ms : Members Json} {n : Node}
    (h : Node.ofJson (.obj ms) = .ok n) :
    n.info.guard = (Draft.ofMembers ms).withArrow.info.guard ∧
      n.info.loop = (Draft.ofMembers ms).withArrow.info.loop := by
  have hnode (d : Draft) : d.node.info = d.info := by
    unfold Draft.node
    split <;> rfl
  rcases ofJson_obj_cases h with rfl | ⟨_, _, _, _, rfl⟩ | ⟨_, _, _, _, _, rfl⟩
  · rw [hnode]
    exact ⟨rfl, rfl⟩
  · exact ⟨rfl, rfl⟩
  · exact ⟨rfl, rfl⟩

theorem Draft.info_withArrow (d : Draft) :
    d.withArrow.info.guard = d.info.guard ∧ d.withArrow.info.loop = d.info.loop := by
  unfold withArrow
  split <;> exact ⟨rfl, rfl⟩

/-- JSON text is an expression for its value. So a JSON value other than a string and null, as the
condition `if` or `while` of a node or as the condition `error` of its handler, holds just if it
counts as true, whatever variables there are. -/
theorem json_text_denotes {v : Json} (hv : v.Regular Number.ReadsBack) :
    (∀ scope, Expr.evaluate v.text scope = .ok (.ofJson v)) ∧
    ((∀ t, v ≠ .str t) → v ≠ .null → ∀ s : Store,
      Condition.holds v.plainText s = v.isTruthy ∧
      (∀ ms n, Node.ofJson (.obj ms) = .ok n →
        (Members.get? "if" ms = some v → Condition.holds n.info.guard s = v.isTruthy) ∧
        (Members.get? "while" ms = some v → Condition.holds n.info.loop s = v.isTruthy)) ∧
      ∀ message actions,
        Condition.holds (Node.handler v message actions).info.guard s = v.isTruthy) := by
  refine ⟨Expr.evaluate_text hv, fun hstr hnull s => ?_⟩
  have hplain := Condition.holds_plainText hv hstr hnull s
  refine ⟨hplain, fun ms n hn => ?_, fun message actions => hplain⟩
  obtain ⟨hguard, hloop⟩ := Node.conditions_of_ofJson hn
  obtain ⟨hguard', hloop'⟩ := Draft.info_withArrow (Draft.ofMembers ms)
  rw [hguard, hguard', hloop, hloop']
  refine ⟨fun hif => ?_, fun hwhile => ?_⟩
  · simpa only [Draft.info, Draft.ofMembers, hif, Option.map_some, Option.getD_some] using hplain
  · simpa only [Draft.info, Draft.ofMembers, hwhile, Option.map_some, Option.getD_some] using hplain

/-- An object with a string that needs escapes, a negative number, and one with an exponent. -/
def mixedValue : Json :=
  .obj [("a \"b\"", .arr [.num (.float (-1.5)), .num (.float 1e-7), .str "\n\\", .null]),
    ("t", .bool true)]

theorem regular_mixedValue : mixedValue.Regular Number.ReadsBack := by
  refine .obj (List.pairwise_pair.mpr (by decide)) ?_
  simp only [List.forall_mem_cons, List.not_mem_nil, false_implies, implies_true, and_true]
  refine ⟨.arr ?_, .bool true⟩
  simp only [List.forall_mem_cons, List.not_mem_nil, false_implies, implies_true, and_true]
  exact ⟨.num (by decide +kernel), .num (by decide +kernel), .str _, .null⟩

theorem mixedValue_text_denotes :
    mixedValue.Regular Number.ReadsBack ∧
      Expr.evaluate "\x7b\"a \\\"b\\\"\":[-1.5,1e-7,\"\\n\\\\\",null],\"t\":true\x7d" [] =
        .ok (.ofJson mixedValue) ∧
      Condition.holds mixedValue.plainText ⟨[]⟩ = true := by
  have htext : mixedValue.text =
      "\x7b\"a \\\"b\\\"\":[-1.5,1e-7,\"\\n\\\\\",null],\"t\":true\x7d" := by
    decide +kernel
  obtain ⟨heval, hholds⟩ := json_text_denotes regular_mixedValue
  refine ⟨regular_mixedValue, ?_, ?_⟩
  · rw [← htext]
    exact heval []
  · exact (hholds (by simp [mixedValue]) (by simp [mixedValue]) ⟨[]⟩).1

end CommandChain
