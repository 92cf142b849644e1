/-!
# Wordings

An expression, a JSON value, a YAML document or a TOML document that cannot be read is refused in
the words of its reader. They are no part of what is read, so whoever reports them is given them. -/

namespace CommandChain

/-- What the readers say of a text that they refuse. -/
structure Wording where
  expression : String → String := fun _ => " --> the text is not an expression"
  json : String → String := fun _ => "the text is not a JSON value"
  yaml : String → String := fun _ => "the text is not a YAML document"
  toml : String → String := fun _ => "the text is not a TOML document"

end CommandChain
