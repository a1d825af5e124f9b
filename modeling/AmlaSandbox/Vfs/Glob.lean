import Mathlib.Data.List.Sort
import AmlaSandbox.Library.Segments
import AmlaSandbox.Vfs.BottomUp

/-!
# Glob patterns over the stored paths

A pattern is turned into a regular expression, which is matched against every key. Each piece of a
pattern becomes one piece of the expression.
-/

namespace AmlaSandbox.Vfs

open Library

/-! ### What a pattern means -/

/-- `**`, `*`, `?` and any other character. -/
inductive GlobItem
  | anything
  | run
  | one
  | self (c : Char)
deriving DecidableEq

namespace GlobItem

def globItems : Text → List GlobItem
  | [] => []
  | '*' :: '*' :: rest => anything :: globItems rest
  | c :: rest => (if c = '*' then run else if c = '?' then one else self c) :: globItems rest

def Takes (item : GlobItem) (_before u _after : Text) : Prop :=
  match item with
  | anything => True
  | run => '/' ∉ u
  | one => ∃ c, c ≠ '/' ∧ u = [c]
  | self c => u = [c]

end GlobItem

/-- The documented matching: `*` stands for any characters except `/`, `**` for any characters, `?`
for one character except `/`, and every other character for itself. -/
def GlobMatches (pattern path : Text) : Prop :=
  Cut GlobItem.Takes (GlobItem.globItems pattern) [] path

/-- The stored paths that the normalised pattern matches, in order. -/
structure IsGlobOf (vfs : Vfs) (pattern : Text) (result : List Text) : Prop where
  sorted : result.Pairwise (· < ·)
  mem_iff : ∀ p, p ∈ result ↔
    vfs.containsKey p ∧ ∃ q, normalizePath pattern = .ok q ∧ GlobMatches q p

/-! ### Regular expressions -/

/-- The pieces of an expression that `glob` writes. -/
inductive RegexItem
  | dotStar
  | notSlashStar
  | notSlash
  | plain (c : Char)
  | escaped (c : Char)
deriving DecidableEq

namespace RegexItem

def text : RegexItem → Text
  | dotStar => ".*".toList
  | notSlashStar => "[^/]*".toList
  | notSlash => "[^/]".toList
  | plain c => [c]
  | escaped c => ['\\', c]

def isAscii (c : Char) : Bool := c.val < 128

/-- The characters that do not stand for themselves in an expression. -/
def metacharacters : Text := "\\.+*?()|[]{}^$".toList

/-- A character that is written as it is has no other meaning, and what is escaped is ASCII
punctuation, white space or a control character. -/
def Valid : RegexItem → Prop
  | plain c => c ∉ metacharacters
  | escaped c => isAscii c ∧ c.isAlphanum = false
  | _ => True

instance : DecidablePred Valid
  | plain _ => inferInstanceAs (Decidable (¬ _))
  | escaped _ => inferInstanceAs (Decidable (_ ∧ _))
  | dotStar | notSlashStar | notSlash => .isTrue trivial

/-- An escape that the syntax does not have. -/
def Refused : RegexItem → Prop
  | escaped c => ¬ isAscii c
  | _ => False

instance : DecidablePred Refused
  | escaped _ => inferInstanceAs (Decidable (¬ _))
  | dotStar | notSlashStar | notSlash | plain _ => .isFalse not_false

/-- What a piece takes of a word; `\<` and `\>` take nothing, at the start and at the end of a run
of word characters. -/
def Takes (isWord : Char → Bool) (item : RegexItem) (before u after : Text) : Prop :=
  match item with
  | dotStar => '\n' ∉ u
  | notSlashStar => '/' ∉ u
  | notSlash => ∃ c, c ≠ '/' ∧ u = [c]
  | plain c => u = [c]
  | escaped c =>
    if c = '<' then u = [] ∧ ¬ before.getLast?.any isWord ∧ after.head?.any isWord
    else if c = '>' then u = [] ∧ before.getLast?.any isWord ∧ ¬ after.head?.any isWord
    else u = [c]

/-- The expression between its anchors. -/
def anchored (items : List RegexItem) : Text := '^' :: (items.flatMap text ++ ['$'])

end RegexItem

/-- What `glob` relies on in `regex::Regex`: valid pieces one after the other match the words that
can be cut along them, and an escape that does not exist is a syntax error. `isWord` says which
characters are word characters. -/
structure IsRegex (isWord : Char → Bool) (new : Text → Option (Text → Bool)) : Prop where
  reads : ∀ items : List RegexItem, (∀ x ∈ items, x.Valid) →
    ∃ isMatch, new (RegexItem.anchored items) = some isMatch ∧
      ∀ w, isMatch w = true ↔ Cut (RegexItem.Takes isWord) items [] w
  refuses : ∀ items : List RegexItem, (∀ x ∈ items, x.Valid ∨ x.Refused) →
    (∃ x ∈ items, x.Refused) → new (RegexItem.anchored items) = none

/-- What `char::is_alphanumeric` and the word characters of an expression are in ASCII. -/
structure IsUnicode (isAlphanumeric isWord : Char → Bool) : Prop where
  alphanumeric : ∀ c, RegexItem.isAscii c → isAlphanumeric c = c.isAlphanum
  word : ∀ c, RegexItem.isAscii c → isWord c = (c.isAlphanum || c == '_')

/-! ### The search -/

section Search

variable (isAlphanumeric : Char → Bool) (new : Text → Option (Text → Bool))

/-- The loop over the characters of a pattern. -/
def regexPattern : Text → Text
  | [] => []
  | '*' :: '*' :: rest => ".*".toList ++ regexPattern rest
  | c :: rest =>
    if c = '*' then "[^/]*".toList ++ regexPattern rest
    else if c = '?' then "[^/]".toList ++ regexPattern rest
    else if c = '.' then "\\.".toList ++ regexPattern rest
    else if c = '/' ∨ c = '-' ∨ c = '_' ∨ isAlphanumeric c then c :: regexPattern rest
    else '\\' :: c :: regexPattern rest

def glob (vfs : Vfs) (pattern : Text) : List Text :=
  match normalizePath pattern with
  | .error _ => []
  | .ok pattern =>
    match new ('^' :: (regexPattern isAlphanumeric pattern ++ ['$'])) with
    | none => []
    | some isMatch => (vfs.entries.keys.filter isMatch).insertionSort (· ≤ ·)

end Search

end AmlaSandbox.Vfs
