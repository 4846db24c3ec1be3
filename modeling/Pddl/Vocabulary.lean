/-!
# Closed vocabularies

The operators and other fixed words of a planning text form small closed vocabularies.  The
grammar recognises exactly the words of a vocabulary, and every word stands for one member.

* `Vocabulary` : a type whose members are all listed and each have a keyword.
* `Vocabulary.ofKeyword?` : the member that a word stands for.
* `Comparator`, `ArithmeticOp`, `VariadicOp`, `AssignOp`, `RateOp`, `DurationComparator`,
  `TimePoint`, `Interval`, `Optimization` : the vocabularies of expressions, effects and
  conditions.
-/

namespace Pddl

/-- A type of words: every member, in the order of their declaration, and the keyword of each. -/
class Vocabulary (α : Type) where
  /-- The vocabulary as it is displayed. -/
  title : String
  /-- Every member. -/
  members : List α
  /-- The keyword of a member. -/
  keyword : α → String
  complete : ∀ a, a ∈ members

namespace Vocabulary

/-- The member that a word stands for. -/
def ofKeyword? {α : Type} [Vocabulary α] (word : String) : Option α :=
  members.find? fun a => keyword a == word

/-- The words of a vocabulary, each with its member. -/
def entries (α : Type) [Vocabulary α] : List (String × α) :=
  members.map fun a => (keyword a, a)

end Vocabulary

/-- A comparison of two numeric expressions. -/
inductive Comparator where
  | greater | less | equal | atLeast | atMost
  deriving DecidableEq, Repr

instance : Vocabulary Comparator where
  title := "BinaryComp"
  members := [.greater, .less, .equal, .atLeast, .atMost]
  keyword
    | .greater => ">"
    | .less => "<"
    | .equal => "="
    | .atLeast => ">="
    | .atMost => "<="
  complete a := by cases a <;> simp

/-- An arithmetic operator of two operands. -/
inductive ArithmeticOp where
  | times | plus | minus | divide
  deriving DecidableEq, Repr

instance : Vocabulary ArithmeticOp where
  title := "BinaryOp"
  members := [.times, .plus, .minus, .divide]
  keyword
    | .times => "*"
    | .plus => "+"
    | .minus => "-"
    | .divide => "/"
  complete a := by cases a <;> simp

/-- An arithmetic operator of any number of operands. -/
inductive VariadicOp where
  | times | plus
  deriving DecidableEq, Repr

instance : Vocabulary VariadicOp where
  title := "MultiOp"
  members := [.times, .plus]
  keyword
    | .times => "*"
    | .plus => "+"
  complete a := by cases a <;> simp

/-- The operator of any number of operands that has the same keyword, if there is one. -/
def ArithmeticOp.variadic? : ArithmeticOp → Option VariadicOp
  | times => some .times
  | plus => some .plus
  | _ => none

/-- A change of a numeric fluent. -/
inductive AssignOp where
  | assign | scaleUp | scaleDown | increase | decrease | change
  deriving DecidableEq, Repr

instance : Vocabulary AssignOp where
  title := "AssignOp"
  members := [.assign, .scaleUp, .scaleDown, .increase, .decrease, .change]
  keyword
    | .assign => "assign"
    | .scaleUp => "scale-up"
    | .scaleDown => "scale-down"
    | .increase => "increase"
    | .decrease => "decrease"
    | .change => "change"
  complete a := by cases a <;> simp

/-- The direction of a continuous change. -/
inductive RateOp where
  | increase | decrease
  deriving DecidableEq, Repr

instance : Vocabulary RateOp where
  title := "AssignOpT"
  members := [.increase, .decrease]
  keyword
    | .increase => "increase"
    | .decrease => "decrease"
  complete a := by cases a <;> simp

/-- A comparison of the duration of an action with a bound. -/
inductive DurationComparator where
  | atMost | atLeast | equal
  deriving DecidableEq, Repr

instance : Vocabulary DurationComparator where
  title := "DOp"
  members := [.atMost, .atLeast, .equal]
  keyword
    | .atMost => "<="
    | .atLeast => ">="
    | .equal => "="
  complete a := by cases a <;> simp

/-- A time point of a durative action. -/
inductive TimePoint where
  | start | finish
  deriving DecidableEq, Repr

instance : Vocabulary TimePoint where
  title := "TimeSpecifier"
  members := [.start, .finish]
  keyword
    | .start => "start"
    | .finish => "end"
  complete a := by cases a <;> simp

/-- An interval of a durative action. -/
inductive Interval where
  | all
  deriving DecidableEq, Repr

instance : Vocabulary Interval where
  title := "Interval"
  members := [.all]
  keyword
    | .all => "all"
  complete a := by cases a; simp

/-- The direction in which a plan metric is optimised. -/
inductive Optimization where
  | minimize | maximize
  deriving DecidableEq, Repr

instance : Vocabulary Optimization where
  title := "Optimization"
  members := [.minimize, .maximize]
  keyword
    | .minimize => "minimize"
    | .maximize => "maximize"
  complete a := by cases a <;> simp

end Pddl
