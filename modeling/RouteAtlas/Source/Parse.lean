import RouteAtlas.Source.Grammar.Module

/-!
# Syntax trees of sources

The rules of the grammar are tied together, with a bound on how deep they may nest that no source
reaches. Comments are not part of any rule: each is put where it stands, as a child of the smallest
node around it.
-/

namespace RouteAtlas.Source

open Grammar

/-- The rule for each goal, with at most `fuel` goals inside each other. -/
def ruleFor (language : Language) : (fuel : Nat) → Goal → Rule
  | 0, _ => failure
  | fuel + 1, goal =>
    let g : Context := ⟨language, ruleFor language fuel⟩
    match goal with
    | .expression => Grammar.expression g
    | .operand => Grammar.operand g
    | .chain => Grammar.chain g
    | .statement => Grammar.statementRule g
    | .block => Grammar.block g
    | .pattern targets => Grammar.pattern g targets
    | .type => Grammar.type g
    | .classBody => Grammar.classBody g
    | .element => Grammar.markup g

/-- The line at the start of a file that names the program to run it. -/
def hashBang : Rule := do
  let c ← get
  match c.rest with
  | '#' :: '!' :: _ => takeLeaf .hashBangLine (List.takeWhile (!isLineEnd ·))
  | _ => failure

def commentsBetween (text : List Char) (start stop : Nat) : List Node :=
  if start < stop then
    let between := Text.takeBytes (stop - start) (Text.dropBytes start text)
    (commentsFrom .plain between start start).map fun (a, b) => Node.leaf .comment a b
  else []

mutual

def Node.withComments (text : List Char) : Node → Node
  | .mk label role start stop [] => .mk label role start stop []
  | .mk label role start stop (n :: ns) =>
    .mk label role start stop (childrenWithComments text start stop (n :: ns))

/-- The children of a node from an offset on, with the comments before and behind them. -/
def childrenWithComments (text : List Char) (start stop : Nat) : List Node → List Node
  | [] => commentsBetween text start stop
  | n :: ns =>
    commentsBetween text start n.start ++
      n.withComments text :: childrenWithComments text n.stop stop ns

end

/-- The text has something that looks like a comment. -/
def mayHaveComments : List Char → Bool
  | '/' :: '/' :: _ => true
  | '/' :: '*' :: _ => true
  | _ :: cs => mayHaveComments cs
  | [] => false

/-- How deep the rules may nest in a text of the given length. -/
def nesting (length : Nat) : Nat := 8 * length + 64

def statements (language : Language) (text : List Char) : List Node :=
  let rule := inOrder [maybe hashBang, many (ruleFor language (nesting text.length) .statement)]
  match rule.run ⟨text, 0, 0⟩ with
  | some (nodes, _) => nodes
  | none => []

/-- The syntax tree of a source. It starts at the first token or comment and reaches to the end. -/
def parse (language : Language) (text : String) : Node :=
  let chars := text.toList
  let stop := Text.byteLength chars
  let nodes := statements language chars
  let nodes := if mayHaveComments chars then childrenWithComments chars 0 stop nodes else nodes
  let start := (nodes.head?.map Node.start).getD stop
  .mk (.named .program) none start stop nodes

end RouteAtlas.Source
