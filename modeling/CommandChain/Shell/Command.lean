import CommandChain.Shell.Word

/-!
# Commands of a script

A script is read as one command, made of simple commands by sequence, choice, repetition and
redirection. -/

namespace CommandChain.Shell

/-- Where a redirection takes a stream. -/
inductive RedirectKind where
  | input
  | output
  | append
  | both
  | duplicate
  /-- The text that stands below the command, known by its number. -/
  | document (number : Nat)
deriving Repr, DecidableEq

/-- A redirection and its target. -/
structure Redirect where
  stream : Nat
  kind : RedirectKind
  target : Word
deriving Repr

/-- A simple command: assignments, the words of a call, and redirections. -/
structure Simple where
  assignments : List (List Char × Word) := []
  words : List Word := []
  redirects : List Redirect := []
deriving Repr

/-- A command. A line is that on which the command begins. -/
inductive Command where
  | simple (line : Nat) (c : Simple)
  | skip
  | seq (a b : Command)
  | andThen (a b : Command)
  | orElse (a b : Command)
  | negate (a : Command)
  | pipe (a b : Command)
  | background (a : Command)
  | subshell (a : Command)
  | redirected (line : Nat) (a : Command) (rs : List Redirect)
  | choose (cond yes no : Command)
  /-- Repeat the body as long as the condition holds, or as long as it does not. -/
  | repeatWhile (holds : Bool) (cond body : Command)
  /-- Repeat the body for every word, or for every argument if there are no words. -/
  | forEach (line : Nat) (name : List Char) (words : Option (List Word)) (body : Command)
  /-- Run the body of the first clause of which a pattern fits the word. -/
  | select (line : Nat) (word : Word) (clauses : List (List Word × Command))
  /-- Give a name to a script, which begins on a line. -/
  | define (name script : List Char) (line : Nat)
deriving Repr

end CommandChain.Shell
