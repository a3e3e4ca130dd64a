import Reckoner.Text.Quoted

/-!
# Command-line options

Options are single letters after a hyphen and may be grouped. An option that takes a value takes
what is left of its group, or else the next argument. Options end at the first argument that is
not one, at a lone hyphen, and after a double hyphen.
-/
namespace Reckoner
namespace CommandLine

/-- An option and its value; options without a value have an empty one. -/
structure Flag where
  letter : Text
  value : Text := []
deriving DecidableEq, Repr

/-- A letter that is an option, and whether it takes a value. -/
structure Known where
  letter : Char
  takesValue : Bool := false

/-- Why the arguments are refused. -/
inductive OptionError where
  | unknown (letter : Text)
  | missingValue (letter : Text)
deriving DecidableEq, Repr

def OptionError.text (tool : Text) : OptionError → Text
  | unknown letter => tool ++ ": unknown option -" ++ letter
  | missingValue letter => tool ++ ": expected argument for -" ++ letter

/-- The options of a group, given by its letters, and the arguments that are left. -/
def readGroup (known : List Known) : List Text → List Text →
    Except OptionError (List Flag × List Text)
  | [], args => .ok ([], args)
  | letter :: letters, args =>
    match known.find? fun k => Text.ofString (k.letter.toString) == letter with
    | none => .error (.unknown letter)
    | some k =>
      if !k.takesValue then do
        let (flags, args) ← readGroup known letters args
        return (⟨letter, []⟩ :: flags, args)
      else if !letters.isEmpty then .ok ([⟨letter, letters.flatten⟩], args)
      else
        match args with
        | [] => .error (.missingValue letter)
        | value :: args => .ok ([⟨letter, value⟩], args)

/-- The options of some arguments and the arguments after them; at most `fuel` groups are read. -/
def readWithin (known : List Known) : Nat → List Text → Except OptionError (List Flag × List Text)
  | 0, args => .ok ([], args)
  | _, [] => .ok ([], [])
  | fuel + 1, arg :: args =>
    if arg = Text.ofString "--" then .ok ([], args)
    else
      match arg with
      | hyphen :: group =>
        if hyphen ≠ Text.byte '-' ∨ group = [] then .ok ([], arg :: args)
        else do
          let (flags, args) ← readGroup known (Text.runes group |>.map Prod.snd) args
          let (more, args) ← readWithin known fuel args
          return (flags ++ more, args)
      | [] => .ok ([], arg :: args)

/-- The options of some arguments and the arguments after them. -/
def readOptions (known : List Known) (args : List Text) :
    Except OptionError (List Flag × List Text) :=
  readWithin known args.length args

/-- What a program leaves behind. -/
structure Exit where
  output : Text := []
  errors : Text := []
  code : Nat := 0
deriving DecidableEq, Repr

/-- The end of a program that complains under its own name. -/
def complaint (tool message : Text) : Exit :=
  { errors := (tool ++ ": " ++ message).line, code := 1 }

end CommandLine
end Reckoner
