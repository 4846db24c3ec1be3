import Pddl.Grammar.Basic

/-!
# Forms

The shapes that the rules of the language are made of: parenthesised forms with a head word,
lists, labelled sections, alternatives.

* `Grammar.parens`, `Grammar.form`, `Grammar.labelled` : what stands around a construct.
* `Grammar.pair`, `Grammar.headed` : two constructs, separated or just behind blanks.
* `Grammar.many1`, `Grammar.many`, `Grammar.optional` : lists and optional parts.
* `Grammar.itemsOf`, `Grammar.items` : typed lists.
* `Grammar.choice` : the first of several alternatives.
-/

namespace Pddl

namespace Grammar

variable {N : Type → Type} {α β : Type}

instance : Functor (Grammar N) where
  map f g := refine (fun a => .ok (f a)) g

instance : SeqLeft (Grammar N) := ⟨fun g h => Prod.fst <$> seq g (h ())⟩

instance : SeqRight (Grammar N) := ⟨fun g h => Prod.snd <$> seq g (h ())⟩

instance : OrElse (Grammar N α) := ⟨fun g h => orElse g (h ())⟩

/-! ### Words and symbols -/

/-- Blanks and comments, possibly none. -/
def blanks : Grammar N Unit := terminal .blanks

/-- What separates two elements. -/
def separator : Grammar N Unit := terminal .separator

/-- A fixed word. -/
def word (w : String) : Grammar N Unit := terminal (.word w)

/-- A symbol of a kind. -/
def symbol (kind : SymbolKind) : Grammar N (Symbol kind) := terminal (.symbol kind)

/-- A word of a vocabulary. -/
def keyword (α : Type) [Vocabulary α] : Grammar N α := terminal (.oneOf (Vocabulary.entries α))

/-- A number, which must be finite. -/
def number : Grammar N Number :=
  refine (fun d =>
    match Binary64.ofDecimal false d with
    | .finite x => .ok x
    | _ => .error .infiniteNumber) (terminal .decimal)

/-! ### What stands around a construct -/

/-- A construct with blanks and comments around it. -/
def padded (g : Grammar N α) : Grammar N α := blanks *> g <* blanks

/-- A construct in parentheses. -/
def parens (g : Grammar N α) : Grammar N α :=
  terminal (.char '(') *> padded g <* terminal (.char ')')

/-- A form: a head word and a construct in parentheses. -/
def form (head : String) (g : Grammar N α) : Grammar N α := parens (word head *> blanks *> g)

/-- A construct behind its label. -/
def labelled (label : String) (g : Grammar N α) : Grammar N α := word label *> separator *> g

/-- A construct behind what separates it from the one before. -/
def separated (g : Grammar N α) : Grammar N α := separator *> g

/-- Two constructs, separated. -/
def pair (g : Grammar N α) (h : Grammar N β) : Grammar N (α × β) := seq g (separated h)

/-- A construct with others behind it, which need no separation. -/
def headed (head : Grammar N α) (g : Grammar N β) : Grammar N (α × β) := seq head (blanks *> g)

/-! ### Lists and alternatives -/

/-- One or more constructs, separated. -/
def many1 (g : Grammar N α) : Grammar N (List α) :=
  (fun (a, as) => a :: as) <$> seq g (more g)

/-- Any number of constructs, separated. -/
def many (g : Grammar N α) : Grammar N (List α) := (·.getD []) <$> opt (many1 g)

/-- A separated construct that may be missing. -/
def optional (g : Grammar N α) : Grammar N (Option α) := opt (separated g)

/-- The first alternative that is there. -/
def choice : List (Grammar N α) → Grammar N α
  | [] => terminal (.refuse .alternative)
  | [g] => g
  | g :: gs => g <|> choice gs

/-! ### Typed lists -/

/-- A type. -/
def type : Grammar N TypeSpec :=
  .exact <$> symbol .type <|> .either <$> form "either" (many1 (symbol .type))

/-- Values and the type that they share. -/
def typedGroup (g : Grammar N α) : Grammar N (List (Typed α)) :=
  (fun (as, type) => as.map fun a => ⟨a, type⟩) <$>
    seq (many1 g) (padded (terminal (.char '-')) *> type)

/-- A typed list whose values have the given type where none is written. -/
def itemsOf (default : TypeSpec) (g : Grammar N α) : Grammar N (TypedList α) :=
  typedList default (typedGroup g) (many g)

/-- A typed list of objects. -/
def items (g : Grammar N α) : Grammar N (TypedList α) := itemsOf .object g

/-- The parameters of an action or the variables of a quantifier. -/
def parameters : Grammar N (TypedList Variable) := parens (items (symbol .var))

/-- A quantifier with its variables and what it ranges over. -/
def quantified (head : String) (g : Grammar N α) : Grammar N (TypedList Variable × α) :=
  form head (pair parameters g)

end Grammar

end Pddl
