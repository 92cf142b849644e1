import CommandChain.Proofs.Json.Stray
import CommandChain.Proofs.Step.Collected

/-!
# Steps that store a text

A handler stores a text by a step that collects (`dispatch_collectCommand`), with the text as a JSON
string as its only input token.

The token is read as JSON text between quotation marks and, failing that, as the characters that
stand there. These are not the text but the text as it is escaped in a JSON string (`Json.escaped`),
and that is what is stored (`literal_text`, `literal_of_no_json`). -/

namespace CommandChain

/-! ### Escaped texts -/

namespace Json

/-- A text as it stands between the quotes of a JSON string. -/
def escaped (t : String) : String := String.ofList (t.toList.flatMap escapeChar)

@[simp] theorem toList_escaped (t : String) : (escaped t).toList = t.toList.flatMap escapeChar :=
  String.toList_ofList

theorem escaped_eq_self_iff {t : String} :
    escaped t = t ↔ ∀ c ∈ t.toList, c ≠ '"' ∧ c ≠ '\\' ∧ 32 ≤ c.toNat := by
  rw [← flatMap_escapeChar_eq_iff, ← String.toList_inj, toList_escaped]

theorem isBlank_of_mem_escapeChar {c d : Char} (hc : Text.isBlank c = false)
    (hd : d ∈ escapeChar c) : Text.isBlank d = false := by
  have hdigit : ∀ n < 16, Text.isBlank (hexDigit n) = false := by decide
  unfold escapeChar at hd
  split_ifs at hd with _ _ _ _ _ _ _ hcontrol
  all_goals simp only [List.mem_cons, List.not_mem_nil, or_false] at hd
  -- a backslash and one character, for each of the seven short escapes
  any_goals (rcases hd with rfl | rfl <;> decide)
  · rcases hd with rfl | rfl | rfl | rfl | rfl | rfl
    any_goals decide
    · exact hdigit _ (by omega)
    · exact hdigit _ (by omega)
  · rw [hd]
    exact hc

theorem escaped_ne_empty {t : String} (h : t ≠ "") : escaped t ≠ "" := by
  rw [Ne, ← String.toList_inj, toList_escaped]
  rcases ht : t.toList with _ | ⟨c, cs⟩
  · exact absurd (String.toList_inj.mp ht) h
  · simp [escapeChar_ne_nil c]

theorem isTrimmed_escaped {s : List Char} (h : Text.IsTrimmed s) :
    Text.IsTrimmed (s.flatMap escapeChar) := by
  constructor
  · intro d hd
    cases s with
    | nil => simp at hd
    | cons c s =>
      rw [List.flatMap_cons, List.head?_append_of_ne_nil _ (escapeChar_ne_nil c)] at hd
      exact isBlank_of_mem_escapeChar (h.1 c rfl) (List.mem_of_mem_head? hd)
  · intro d hd
    rcases List.eq_nil_or_concat' s with rfl | ⟨s, c, rfl⟩
    · simp at hd
    · rw [List.flatMap_append, List.flatMap_singleton,
        List.getLast?_append_of_ne_nil _ (escapeChar_ne_nil c)] at hd
      exact isBlank_of_mem_escapeChar (h.2 c (by simp)) (List.mem_of_mem_getLast? hd)

end Json

/-! ### The token of a text -/

namespace Store

/-- The token of a text is read as JSON text, and else stands for the escaped text. -/
theorem literal_text (s : Store) (t : String) :
    s.literal (Json.str t).text = (Json.parse? (Json.escaped t)).getD (.str (Json.escaped t)) := by
  have hunquote : Text.unquote? (Json.str t).text.toList =
      some (t.toList.flatMap Json.escapeChar) := by
    simp [Json.text, Json.compact, Json.quoted, Text.unquote?, Text.isQuote]
  unfold literal
  rw [hunquote]
  simp only [Json.parse?, Json.escaped, String.toList_ofList]

end Store

/-- The text of a string that is no JSON text stands for the escaped string, and is stored as
that. -/
theorem literal_of_no_json {m : String} (hm : Json.parse? m = none) (htrim : Text.trimmed m = m)
    (s : Store) :
    s.literal (Json.str m).text = .str (Json.escaped m) ∧
      (Json.str (Json.escaped m)).coerce = .str (Json.escaped m) := by
  have hnone : Json.parseChars? (m.toList.flatMap Json.escapeChar) = none :=
    Json.parseChars?_flatMap_escapeChar hm
  have hends : Text.trim (m.toList.flatMap Json.escapeChar) = m.toList.flatMap Json.escapeChar := by
    refine Text.trim_eq_self (Json.isTrimmed_escaped ?_)
    rw [← htrim, Text.trimmed, String.toList_ofList]
    exact Text.isTrimmed_trim _
  constructor
  · rw [Store.literal_text, Json.parse?, Json.toList_escaped, hnone]
    rfl
  · simp only [Json.coerce, Json.toList_escaped, hends, hnone]
    rfl

end CommandChain
