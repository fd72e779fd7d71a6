import SmtDialogue.Script.Term

/-!
# Commands and scripts

A script is a list of lines: commands, comments, and lines of the user that are
copied as they are. Every command fits on one line but the quantified assertion,
which has a line for its binders, one for each word it binds on the way, and one
for its body.
-/

namespace SmtDialogue

/-- A comment behind a declaration, with the name the user gave. -/
inductive Remark where
  | none
  | tracks (name : String)
  | skolemized (name : String)
  | array (name : String)
deriving DecidableEq

def Remark.text : Remark → String
  | .none => ""
  | .tracks name => " ; tracks user variable " ++ Literal.string name
  | .skolemized name => " ; skolemized " ++ Literal.string name
  | .array name => " ; array " ++ Literal.string name

inductive Command where
  | setOption (name value : String)
  | setLogic (logic : String)
  | declareSort (name : String) (constructors : Option (List String))
  | declare (name : Name) (args : List NameSort) (sort : NameSort) (remark : Remark)
  | define (name : Name) (sort : NameSort) (body : Term) (remark : Remark)
  | assert (t : Term)
  /-- For all binders, with some words bound one after the other, the body. -/
  | assertForall (binders : List (WordId × Kind)) (bindings : List (WordId × Term)) (body : Term)
  | minimize (id : WordId)
  | maximize (id : WordId)
  | assertSoft (id : WordId) (weight : Nat) (group : Option String)
  | checkSat
  | getModel
  | getObjectives
  | getValue (ids : List WordId)
  | echo (text : String)
  | push (levels : Nat)
  | pop (levels : Nat)

/-- Texts with a blank between them. -/
def spaced (texts : List String) : String :=
  String.intercalate " " texts

namespace Command

/-- A constructor without arguments. -/
def constructorText (label : String) : String :=
  "(" ++ Literal.symbol label ++ ")"

def binderText (binder : WordId × Kind) : String :=
  "(" ++ binder.1.text ++ " " ++ binder.2.sortText ++ ")"

def bindingText (binding : WordId × Term) : String :=
  "  (let ((" ++ binding.1.text ++ " " ++ binding.2.text ++ "))"

/-- The lines a command is written on. -/
def lines : Command → List String
  | .setOption name value =>
    ["(set-option :" ++ String.ofList (name.toList.dropWhile (· == ':')) ++ " " ++ value ++ ")"]
  | .setLogic logic => ["(set-logic " ++ logic ++ ")"]
  | .declareSort name none => ["(declare-sort " ++ name ++ " 0)"]
  | .declareSort name (some constructors) =>
    ["(declare-datatypes ((" ++ name ++ " 0)) ((" ++
      spaced (constructors.map constructorText) ++ ")))"]
  | .declare name args sort remark =>
    ["(declare-fun " ++ name.text ++ " (" ++ spaced (args.map NameSort.text) ++ ") " ++
      sort.text ++ ")" ++ remark.text]
  | .define name sort body remark =>
    ["(define-fun " ++ name.text ++ " () " ++ sort.text ++ " " ++ body.text ++ ")" ++ remark.text]
  | .assert t => ["(assert " ++ t.text ++ ")"]
  | .assertForall binders bindings body =>
    ["(assert (forall (" ++ spaced (binders.map binderText) ++ ")"] ++
      bindings.map bindingText ++
      ["  " ++ body.text ++ String.ofList (List.replicate bindings.length ')') ++ "))"]
  | .minimize id => ["(minimize " ++ id.text ++ ")"]
  | .maximize id => ["(maximize " ++ id.text ++ ")"]
  | .assertSoft id weight group =>
    ["(assert-soft " ++ id.text ++ " :weight " ++ toString weight ++
      (match group with
        | some group => " :id " ++ Literal.symbol group
        | none => "") ++ ")"]
  | .checkSat => ["(check-sat)"]
  | .getModel => ["(get-model)"]
  | .getObjectives => ["(get-objectives)"]
  | .getValue ids => ["(get-value (" ++ spaced (ids.map WordId.text) ++ "))"]
  | .echo text => ["(echo " ++ Literal.string text ++ ")"]
  | .push levels => ["(push " ++ toString levels ++ ")"]
  | .pop levels => ["(pop " ++ toString levels ++ ")"]

/-- The text of a command, its lines separated. -/
def text (c : Command) : String :=
  String.intercalate "\n" c.lines

end Command

inductive ScriptLine where
  /-- The comment that every query starts with. -/
  | banner
  /-- A comment that names the part of a query below it. -/
  | heading (title : String)
  /-- A comment that names the lines of the user below it. -/
  | assumption (name : String)
  /-- A line of the user. -/
  | verbatim (text : String)
  | command (c : Command)

def ScriptLine.lines : ScriptLine → List String
  | .banner => ["; Automatically generated by smtlink. Do not edit."]
  | .heading title => ["; --- " ++ title ++ " ---"]
  | .assumption name => ["; -- axiom " ++ Literal.string name]
  | .verbatim text => [text]
  | .command c => c.lines

abbrev Script := List ScriptLine

namespace Script

/-- The commands of a script, in order. -/
def commands (s : Script) : List Command :=
  s.filterMap fun
    | .command c => some c
    | _ => none

/-- The lines of a script, each ended. -/
def text (s : Script) : String :=
  String.join ((s.flatMap ScriptLine.lines).map (· ++ "\n"))

end Script

end SmtDialogue
