import SmtDialogue.Config.Basic

/-!
# Sample answers

Answers line by line as a solver prints them, each written against one of the
sample tables.
-/

namespace SmtDialogue.Sample

def unsat : List String := ["unsat"]

def timeout : List String := ["timeout"]

/-- Values of the words of `bitVectorTable`. -/
def bitVectorModel : List String := [
  "sat",
  "((s0 #x03)",
  " (s1 #x05))"]

/-- A definition for every variable of `mixedTable`, and one for a function that the
solver made up. -/
def mixedModel : List String := [
  "sat",
  "(",
  "  (define-fun s0 () Bool true)",
  "  (define-fun s1 () Int (- 42))",
  "  (define-fun s2 () Real (/ 1.0 3.0))",
  "  (define-fun s3 () (_ BitVec 8) #xff)",
  "  (define-fun s4 () (_ FloatingPoint 8 24) (fp #b0 #x7f #b00000000000000000000000))",
  "  (define-fun s5 () (_ FloatingPoint 11 53) (_ +zero 11 53))",
  "  (define-fun s6 () String \"a\"\"b\\u\x7be9\x7d\")",
  "  (define-fun s7 () String \"z\")",
  "  (define-fun s8 () Color Green)",
  "  (define-fun s9 () T T!val!0)",
  "  (define-fun k!0 ((x!0 Int)) Int",
  "    (ite (= x!0 1) 2 0))",
  ")"]

/-- A real of `mixedTable` behind a cast. -/
def castModel : List String := [
  "sat",
  "((s2 (to_real 3)))"]

/-- The objective of `objectiveTable` at a number. -/
def boundedObjectives : List String := [
  "sat",
  "(objectives",
  " (s2 7)",
  ")",
  "((s0 3)",
  " (s1 4))"]

/-- The objective of `objectiveTable` without a bound. -/
def unboundedObjectives : List String := [
  "sat",
  "(objectives",
  " (s2 oo)",
  ")",
  "((s0 0)",
  " (s1 0))"]

/-- Three models of `objectiveTable`, each with a status. -/
def threeModels : List String := [
  "sat",
  "((s0 1))",
  defaultSentinel,
  "sat",
  "((s0 2))",
  defaultSentinel,
  "sat",
  "((s0 3))"]

/-- Two models of which only the first has a status. -/
def preambleModels : List String := [
  "sat",
  "((s0 1))",
  defaultSentinel,
  "((s0 2))"]

end SmtDialogue.Sample
