import ConstraintModel.Json.Numeral
import ConstraintModel.Proofs.Evaluation
import ConstraintModel.Proofs.Phrase

/-!
# Meaning of texts

What a text of the source denotes. It is read as a phrase, and the words of the phrase are looked up.
Symbols and functions of the modelling language stand for operations on values by tables of their
own, whatever the names are that a source is written with. A span includes its last integer, the index
sets of an array are those that it was given, and a word that is drawn from a domain stands for the
members of the domain in what comes after it, the innermost first.
-/

namespace ConstraintModel.Source

open ConstraintModel

/-- The values of words, innermost first. -/
abbrev Environment := List (String × Value)

/-! ## Words -/

/-- The double nearest to a decimal. -/
def decimal? (w : List Char) : Option Float := do
  let n ← Json.Numeral.ofWord? w
  let exponent := n.exponent.getD 0 - n.fraction.length
  return Float.ofScientific (Json.Numeral.natOf (n.whole ++ n.fraction)) (exponent < 0)
    exponent.natAbs

def number? (w : List Char) : Option Literal :=
  if w.all Char.isDigit then (String.ofList w).toNat?.map fun n => .int n
  else (decimal? w).map .float

/-- The value of a word: a digit leads a number, and names have their values in the environment. -/
def wordValue? (env : Environment) (w : String) : Option Value :=
  if w.toList.head?.any Char.isDigit then (number? w.toList).map .scalar
  else if w = "true" then some (.bool true)
  else if w = "false" then some (.bool false)
  else env.lookup w

/-! ## Functions -/

namespace Function

/-- The last index set of the arguments is followed by the array: the array with these index sets,
if they have as many tuples as it has elements. -/
def reshaped : List Value → List (List Int) → Option Value
  | [.array _ xs], sets => if (tuples sets).length = xs.length then some (.array sets xs) else none
  | set :: args, sets => do reshaped args (sets ++ [← set.intMembers?])
  | [], _ => none

/-- A function on the values of its arguments. -/
def apply (lib : Library) : Function → List Value → Option Value
  | power, [a, b] => do return .scalar (← (← a.scalar?).power? (← b.scalar?))
  | last, args => Aggregate.greatest.apply args
  | indexSet dim rank, [.array sets _] =>
    if 1 < rank then
      match dim with
      | 0 => none
      | d + 1 => if sets.length = rank then (sets[d]?).map .intSet else none
    else
      match sets with
      | [is] => some (.intSet is)
      | _ => none
  | slice rank, .array sets xs :: .array _ ranges :: newSets => do
    let ranges ← ranges.mapM Value.intMembers?
    let newSets ← newSets.mapM Value.intMembers?
    if sets.length = rank ∧ ranges.length = rank ∧
        newSets.map List.length = ranges.map List.length then
      return .array newSets (← (tuples ranges).mapM (elementAt? sets xs))
    else none
  | reshape 1, [.array _ xs] => some (.list xs)
  | reshape rank, args => if args.length = rank + 1 then reshaped args [] else none
  | aggregate op, args => op.apply args
  | global kind, args => lib kind args
  | _, _ => none

end Function

/-- The functions of the modelling language and of its library that have one name each. -/
def functions : List (String × Function) :=
  [("pow", .power), ("index_set", .indexSet 1 1), ("sum", .aggregate .sum),
    ("product", .aggregate .product), ("count", .aggregate .count), ("forall", .aggregate .every),
    ("exists", .aggregate .any), ("min", .aggregate .least), ("max", .aggregate .greatest),
    ("alldifferent", .global .allDifferent),
    ("alldifferent_except_0", .global .allDifferentExceptZero),
    ("alldifferent_except", .global .allDifferentExcept), ("all_equal", .global .allEqual),
    ("nvalue", .global .distinctCount), ("circuit", .global .circuit),
    ("increasing", .global .increasing), ("strictly_increasing", .global .strictlyIncreasing),
    ("decreasing", .global .decreasing), ("strictly_decreasing", .global .strictlyDecreasing),
    ("cumulative", .global .cumulative), ("disjunctive", .global .disjunctive),
    ("disjunctive_strict", .global .disjunctiveStrict), ("table", .global .table)]

/-- The number at the front of a word, and what follows it. -/
def leadingNumber? (w : List Char) : Option (Nat × List Char) := do
  let n ← (String.ofList (w.takeWhile Char.isDigit)).toNat?
  return (n, w.dropWhile Char.isDigit)

/-- The functions whose names tell the dimensions of an array. -/
def rankedFunction? (w : List Char) : Option Function :=
  match skip ['s', 'l', 'i', 'c', 'e', '_'] w with
  | some s => do
    let (rank, s) ← leadingNumber? s
    if s = ['d'] then some (.slice rank) else none
  | none =>
    match skip ['a', 'r', 'r', 'a', 'y'] w with
    | some s => do
      let (rank, s) ← leadingNumber? s
      if s = ['d'] then some (.reshape rank) else none
    | none => do
      let s ← skip ['i', 'n', 'd', 'e', 'x', '_', 's', 'e', 't', '_'] w
      let (dim, s) ← leadingNumber? s
      let s ← skip ['o', 'f'] s
      let (rank, s) ← leadingNumber? s
      if s = [] ∧ 1 < rank then some (.indexSet dim rank) else none

def function? (f : String) : Option Function :=
  (rankedFunction? f.toList).or (functions.lookup f)

/-- The value of a function that is called by its name. -/
def called? (lib : Library) (f : String) (args : List Value) : Option Value :=
  if f = "abs" then
    match args with
    | [x] => UnaryOp.absolute.apply x
    | _ => none
  else (function? f).bind fun f => f.apply lib args

/-! ## Phrases -/

namespace Phrase

mutual

def value (lib : Library) : Phrase → Environment → Option Value
  | word w, env => wordValue? env w
  | negative p, env | negated p, env => do UnaryOp.negate.apply (← p.value lib env)
  | negation p, env => do UnaryOp.not.apply (← p.value lib env)
  | operation op p q, env => do op.apply (← p.value lib env) (← q.value lib env)
  | span p q, env => do
    let a ← (← p.value lib env).int?
    let b ← (← q.value lib env).int?
    return .intSet (integers a (b + 1))
  | set items, env => do
    return .set (Literal.membersOf (← (← allValues lib items env).mapM Value.scalar?))
  | list items, env => do return .list (← allValues lib items env)
  | generated body heads, env => do
    let rounds ← rounds lib heads env
    return .list (← rounds.mapM fun env => body.value lib env)
  | element w indices, env => do
    let is ← (← allValues lib indices env).mapM Value.int?
    (← env.lookup w).element? is
  | call f args, env => do called? lib f (← allValues lib args env)
  | quantified f heads body, env => do
    let rounds ← rounds lib heads env
    called? lib f [.list (← rounds.mapM fun env => body.value lib env)]

/-- The values of items that no word is drawn from. -/
def allValues (lib : Library) : List Item → Environment → Option (List Value)
  | [], _ => some []
  | (none, p) :: items, env => do return (← p.value lib env) :: (← allValues lib items env)
  | (some _, _) :: _, _ => none

/-- The environments that the words drawn from domains go through. -/
def rounds (lib : Library) : List Item → Environment → Option (List Environment)
  | [], env => some [env]
  | (some w, p) :: heads, env => do
    let members ← (← p.value lib env).members?
    return (← members.mapM fun x => rounds lib heads ((w, x) :: env)).flatten
  | (none, _) :: _, _ => none

end

end Phrase

/-! ## Texts -/

/-- The text reads as a phrase which has this value, or which has none. The word of a negation is no
phrase by itself. -/
def Denotes (lib : Library) (env : Environment) (s : String) (x : Option Value) : Prop :=
  ∃ p, PhraseReads s.toList p ∧ p.isNot = false ∧ p.value lib env = x

/-- The text denotes this where it stands for one operand. -/
def DenotesAtom (lib : Library) (env : Environment) (s : String) (x : Option Value) : Prop :=
  ∃ p, AtomReads s.toList p ∧ p.isNot = false ∧ p.value lib env = x

/-- The text reads as a phrase, whatever the words in it stand for. -/
def IsPhrase (s : String) : Prop :=
  ∃ p, PhraseReads s.toList p ∧ p.isNot = false

/-- The text reads as one operand. -/
def IsAtom (s : String) : Prop :=
  ∃ p, AtomReads s.toList p ∧ p.isNot = false

end ConstraintModel.Source
