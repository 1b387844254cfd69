import Dice.Text.Numeral
import Dice.Text.Quoted

/-!
# Dice.Command.Options

The words of a command line, read into options.

* `Flag` : the flags, each with a letter and a word;
* `Word`, `classify` : whether a word is plain, a flag, or the mark after which all words are plain;
* `spell` : one word of several letters as flags with the value of the last one;
* `Given` : the value of a flag, which may be given as nothing;
* `Options.read` : the options that the words ask for, or why there are none.

Flags take effect from left to right, so the first one that ends the reading decides. The words of
the notation are those of the first run of plain words.
-/

namespace Dice.Command

inductive Flag where
  | help
  | detailed
  | seed
  | times
  | version
  deriving DecidableEq

namespace Flag

def all : List Flag := [.help, .detailed, .seed, .times, .version]

def letter : Flag → Char
  | .help => 'h'
  | .detailed => 'd'
  | .seed => 's'
  | .times => 't'
  | .version => 'v'

def word : Flag → String
  | .help => "help"
  | .detailed => "detailed"
  | .seed => "seed"
  | .times => "times"
  | .version => "version"

def takesValue : Flag → Bool
  | .seed | .times => true
  | .help | .detailed | .version => false

def ofLetter? (c : Char) : Option Flag :=
  all.find? fun f => f.letter == c

/-- Any start of the word will do, if no other flag starts like that. -/
def startingWith (start : List Char) : List Flag :=
  all.filter fun f => start.isPrefixOf f.word.toList

/-- Both names of a flag, as messages show them. -/
def names (f : Flag) : String :=
  "-" ++ String.singleton f.letter ++ "/--" ++ f.word

end Flag

/-- What is wrong with the value of a flag. -/
inductive Fault where
  | unwanted (value : String)
  | missing
  | malformed (value : String)
  | tooSmall (n : Int)

/-- Why words are not read to their end. -/
inductive Stop where
  | help
  | version
  | ambiguous (word : String) (candidates : List Flag)
  | wrongValue (f : Flag) (fault : Fault)
  | unrecognized (words : List String)

def Fault.message : Fault → String
  | .unwanted value => "ignored explicit argument " ++ Text.quoted value
  | .missing => "expected one argument"
  | .malformed value => "invalid int value: " ++ Text.quoted value
  | .tooSmall n => "must be >= 1, got " ++ toString n

/-! ## Words -/

/-- The mark that ends the flags. -/
def endMark : String := "--"

inductive Word where
  | plain (text : String)
  | flag (f : Flag) (byLetter : Bool) (value : Option (List Char))
  | unknown (text : String)
  | mark

/-- What stands before the first equals sign, and what after it. -/
def splitValue (cs : List Char) : List Char × Option (List Char) :=
  match cs.dropWhile (· != '=') with
  | [] => (cs, none)
  | _ :: value => (cs.takeWhile (· != '='), some value)

def isDecimal (c : Char) : Bool :=
  (Text.decimalDigit? c).isSome

/-- Whether the text after a minus makes a negative number: digits, or digits after a point that
may have digits before it. -/
def isMagnitude (cs : List Char) : Bool :=
  let cs := if cs.getLast? == some '\n' then cs.dropLast else cs
  match cs.dropWhile isDecimal with
  | [] => !cs.isEmpty
  | '.' :: fraction => !fraction.isEmpty && fraction.all isDecimal
  | _ => false

/-- A word with a minus that is no flag is plain if it is a negative number or holds a space. -/
def classifyOther (text : String) (afterMinus : List Char) : Word :=
  if isMagnitude afterMinus || afterMinus.contains ' ' then .plain text else .unknown text

/-- A flag by its word may be cut short; its value stands after an equals sign. -/
def classifyLong (text : String) (afterMinus cs : List Char) : Except Stop Word :=
  let (start, value) := splitValue cs
  match Flag.all.find? (fun f => f.word.toList == start), Flag.startingWith start with
  | some f, _ => .ok (.flag f false value)
  | none, [f] => .ok (.flag f false value)
  | none, [] => .ok (classifyOther text afterMinus)
  | none, candidates => .error (.ambiguous text candidates)

/-- A flag by its letter has its value after an equals sign or directly after the letter. -/
def classifyShort (text : String) (c : Char) (cs : List Char) : Word :=
  match Flag.ofLetter? c, cs with
  | some f, [] => .flag f true none
  | some f, '=' :: value => .flag f true (some value)
  | some f, value => .flag f true (some value)
  | none, _ => classifyOther text (c :: cs)

def classify (text : String) : Except Stop Word :=
  match text.toList with
  | ['-', '-'] => .ok .mark
  | '-' :: '-' :: cs => classifyLong text ('-' :: cs) cs
  | '-' :: c :: cs => .ok (classifyShort text c cs)
  | _ => .ok (.plain text)

/-- After the mark all words are plain. -/
def classifyAll : List String → Except Stop (List Word)
  | [] => .ok []
  | text :: texts =>
    match classify text with
    | .error e => .error e
    | .ok .mark => .ok (.mark :: texts.map .plain)
    | .ok word => (classifyAll texts).map (word :: ·)

/-! ## Flags -/

/-- Letters after one of a flag without a value are flags too, up to one that takes the rest for
its value. The result is the flags before the last, the last, and its value. -/
def spell (f : Flag) : List Char → Except Stop (List Flag × Flag × Option (List Char))
  | [] => .ok ([], f, none)
  | c :: cs =>
    if f.takesValue then .ok ([], f, some (c :: cs))
    else
      match Flag.ofLetter? c with
      | none => .error (.wrongValue f (.unwanted (String.ofList (c :: cs))))
      | some g => (spell g cs).map fun spelled => (f :: spelled.1, spelled.2)

/-- A value given to a flag that takes none is refused, except for more letters. -/
def expand (f : Flag) (byLetter : Bool) :
    Option (List Char) → Except Stop (List Flag × Flag × Option (List Char))
  | none => .ok ([], f, none)
  | some value =>
    if f.takesValue then .ok ([], f, some value)
    else if byLetter && !value.isEmpty then spell f value
    else .error (.wrongValue f (.unwanted (String.ofList value)))

/-! ## Options -/

/-- What a flag was given for its value. The mark that ends the flags is no value but can stand in
the place of one, and then nothing is left. -/
inductive Given (α : Type) where
  | nothing
  | value (a : α)
  deriving DecidableEq

def Given.value? {α : Type} : Given α → Option α
  | .nothing => none
  | .value a => some a

structure Options where
  detailed : Bool
  words : List String
  seed : Option (Given Int)
  times : Given Nat
  deriving DecidableEq

namespace Options

def standard : Options := ⟨false, [], none, .value 1⟩

def integer (f : Flag) (value : List Char) : Except Stop (Given Int) :=
  let text := String.ofList value
  if text = endMark then .ok .nothing
  else
    match Text.readInt text with
    | .ok n => .ok (.value n)
    | .error _ => .error (.wrongValue f (.malformed text))

/-- Nothing is not too small. -/
def atLeastOne (f : Flag) : Given Int → Except Stop (Given Nat)
  | .nothing => .ok .nothing
  | .value n => if n < 1 then .error (.wrongValue f (.tooSmall n)) else .ok (.value n.toNat)

/-- The value is that of a flag that takes one. -/
def set (o : Options) (f : Flag) (value : List Char) : Except Stop Options :=
  match f with
  | .help => .error .help
  | .version => .error .version
  | .detailed => .ok { o with detailed := true }
  | .seed => (integer f value).map fun given => { o with seed := some given }
  | .times =>
    match integer f value with
    | .error e => .error e
    | .ok given => (atLeastOne f given).map fun times => { o with times := times }

/-- Flags without values, and then one more flag. -/
def setAll (o : Options) (last : Flag) (value : List Char) : List Flag → Except Stop Options
  | [] => o.set last value
  | f :: flags =>
    match o.set f [] with
    | .error e => .error e
    | .ok o => setAll o last value flags

end Options

/-! ## Reading -/

/-- Whether the first run of plain words is still to come, going on, or over. -/
inductive Stretch where
  | before
  | within
  | after
  deriving DecidableEq

structure Progress where
  options : Options
  stretch : Stretch
  extras : List String

namespace Progress

/-- A flag ends the run of plain words. -/
def endRun (p : Progress) : Progress :=
  { p with stretch := if p.stretch = .within then .after else p.stretch }

def plain (p : Progress) (text : String) : Progress :=
  if p.stretch = .after then { p with extras := p.extras ++ [text] }
  else
    { p with options := { p.options with words := p.options.words ++ [text] }, stretch := .within }

/-- The mark belongs to a run, but it is no word of the notation. -/
def mark (p : Progress) : Progress :=
  if p.stretch = .after then { p with extras := p.extras ++ [endMark] }
  else { p with stretch := .within }

def unknown (p : Progress) (text : String) : Progress :=
  let p := p.endRun
  { p with extras := p.extras ++ [text] }

def flags (p : Progress) (before : List Flag) (last : Flag) (value : List Char) :
    Except Stop Progress :=
  (p.options.setAll last value before).map fun o => { p.endRun with options := o }

/-- A flag that takes a value and was given none takes the next word, if that is plain. -/
def read (p : Progress) : List Word → Except Stop Progress
  | [] => .ok p
  | .plain text :: words => (p.plain text).read words
  | .mark :: words => p.mark.read words
  | .unknown text :: words => (p.unknown text).read words
  | .flag f byLetter value :: words =>
    match expand f byLetter value with
    | .error e => .error e
    | .ok (before, last, some value) =>
      match p.flags before last value with
      | .error e => .error e
      | .ok p => p.read words
    | .ok (before, last, none) =>
      if last.takesValue then
        match words with
        | .plain text :: words =>
          match p.flags before last text.toList with
          | .error e => .error e
          | .ok p => p.read words
        | _ => .error (.wrongValue last .missing)
      else
        match p.flags before last [] with
        | .error e => .error e
        | .ok p => p.read words

end Progress

/-- Words that belong nowhere are reported when all else is read. -/
def Options.read (texts : List String) : Except Stop Options :=
  match classifyAll texts with
  | .error e => .error e
  | .ok words =>
    match Progress.read ⟨.standard, .before, []⟩ words with
    | .error e => .error e
    | .ok p => if p.extras.isEmpty then .ok p.options else .error (.unrecognized p.extras)

end Dice.Command
