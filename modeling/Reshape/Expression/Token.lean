import Reshape.Expression.Fault
import Reshape.Text.Blank

/-!
# Tokens of an expression

A text is cut at its operators, taking the longest spelling at each place, and at parentheses. All
between is words, which keep their inner blanks. A comma cuts only inside parentheses, and `@` is
the element only where no word has begun.
-/

namespace Reshape.Expression

inductive Token where
  | op (o : Operator)
  | word (text : String)
  | element
  | openGroup
  | closeGroup
  | comma
  deriving DecidableEq

namespace Token

def ofWord (word : List Char) : List Token :=
  match Text.trim word with
  | [] => []
  | text => [.word (String.ofList text)]

/-- The token of a character that cuts, given the open groups and the word before it. -/
def punctuation? (depth : Nat) (word : List Char) (c : Char) : Option Token :=
  if c = '(' then some openGroup
  else if c = ')' then some closeGroup
  else if c = ',' ∧ 0 < depth then some comma
  else if c = '@' ∧ Text.trim word = [] then some element
  else none

def depthAfter (depth : Nat) : Token → Nat
  | openGroup => depth + 1
  | closeGroup => depth - 1
  | _ => depth

/-- The tokens from a position on, where `word` is the text since the last cut. -/
def scan (position depth : Nat) (word s : List Char) : Except Fault (List Token) :=
  match s with
  | [] => .ok (ofWord word)
  | c :: rest =>
    match Operator.longestAt? (c :: rest) with
    | some o => do
      let tokens ← scan (position + o.letters.length) depth []
        (rest.drop (o.letters.length - 1))
      .ok (ofWord word ++ .op o :: tokens)
    | none =>
      match punctuation? depth word c with
      | some token =>
        if token = closeGroup ∧ depth = 0 then .error (.unexpectedCharacter position c)
        else do
          let tokens ← scan (position + 1) (token.depthAfter depth) [] rest
          .ok (ofWord word ++ token :: tokens)
      | none => scan (position + 1) depth (word ++ [c]) rest
termination_by s.length
decreasing_by all_goals simp only [List.length_cons, List.length_drop]; omega

def ofText (text : String) : Except Fault (List Token) := scan 0 0 [] text.toList

end Token

end Reshape.Expression
