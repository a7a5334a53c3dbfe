import Stencil.Files.Access

/-! # Glob patterns

A pattern for paths, segment by segment. In a segment, `?` stands for one character, `*`
for any number of them, and brackets for one of a set; the segment `**` stands for any
number of directories.
-/

namespace Stencil

/-- A set of characters: those listed, and those between two ends. -/
structure CharSet where
  ranges : List (Char × Char)
  deriving DecidableEq, Repr, Inhabited

namespace CharSet

/-- The set that is written between brackets. -/
def ofChars : List Char → CharSet
  | first :: '-' :: last :: cs => ⟨(first, last) :: (ofChars cs).ranges⟩
  | c :: cs => ⟨(c, c) :: (ofChars cs).ranges⟩
  | [] => ⟨[]⟩

def contains (s : CharSet) (c : Char) : Bool := s.ranges.any fun (a, b) => a ≤ c && c ≤ b

end CharSet

/-- A part of a pattern. -/
inductive GlobToken where
  | char (c : Char)
  | anyChar
  | oneOf (s : CharSet)
  | noneOf (s : CharSet)
  /-- Any number of characters. -/
  | anyText
  /-- Any number of directories. -/
  | anyPath
  deriving DecidableEq, Repr, Inhabited

/-- What is wrong with a pattern, at this character. -/
structure GlobFault where
  position : Nat
  words : String
  deriving DecidableEq, Repr, Inhabited

namespace GlobFault

def message (f : GlobFault) : String :=
  "Pattern syntax error near position " ++ toString f.position ++ ": " ++ f.words

def tooManyStars (position : Nat) : GlobFault :=
  { position, words := "wildcards are either regular `*` or recursive `**`" }

def partOfSegment (position : Nat) : GlobFault :=
  { position, words := "recursive wildcards must form a single path component" }

def badRange (position : Nat) : GlobFault := { position, words := "invalid range pattern" }

end GlobFault

namespace GlobToken

/-- The characters up to the bracket that closes a set, and those behind it. The first
character is in the set even if it is a bracket. -/
def set? : List Char → Option (List Char × List Char)
  | [] => none
  | c :: cs =>
      let inside := cs.takeWhile (· != ']')
      match cs.drop inside.length with
      | [] => none
      | _ :: rest => some (c :: inside, rest)

theorem set?_length_lt {cs inside rest : List Char} (h : set? cs = some (inside, rest)) :
    rest.length < cs.length := by
  cases cs with
  | nil => simp [set?] at h
  | cons c cs =>
      simp only [set?] at h
      split at h
      · simp at h
      · rename_i behind
        have total := congrArg List.length behind
        simp only [Option.some.injEq, Prod.mk.injEq] at h
        obtain ⟨_, rfl⟩ := h
        simp only [List.length_drop, List.length_cons] at total ⊢
        omega

/-- A set of characters or of the others, from behind the bracket that opens it. -/
def bracket? (cs : List Char) : Option (GlobToken × List Char) :=
  match cs with
  | '!' :: cs => (set? cs).map fun (inside, rest) => (noneOf (.ofChars inside), rest)
  | cs => (set? cs).map fun (inside, rest) => (oneOf (.ofChars inside), rest)

theorem bracket?_length_lt {cs rest : List Char} {t : GlobToken}
    (h : bracket? cs = some (t, rest)) : rest.length < cs.length := by
  unfold bracket? at h
  split at h
  · obtain ⟨⟨inside, more⟩, found, same⟩ := Option.map_eq_some_iff.1 h
    obtain ⟨_, rfl⟩ := Prod.mk.inj same
    exact Nat.lt_succ_of_lt (set?_length_lt found)
  · obtain ⟨⟨inside, more⟩, found, same⟩ := Option.map_eq_some_iff.1 h
    obtain ⟨_, rfl⟩ := Prod.mk.inj same
    exact set?_length_lt found

/-- Reads the parts of a pattern from a position on; `atStart` tells whether a segment
starts there. -/
def read (position : Nat) (atStart : Bool) : List Char → Except GlobFault (List GlobToken)
  | [] => .ok []
  | '?' :: cs => do return anyChar :: (← read (position + 1) false cs)
  | '*' :: '*' :: '*' :: _ => .error (.tooManyStars (position + 2))
  | ['*', '*'] => if atStart then .ok [anyPath] else .error (.partOfSegment (position - 1))
  | '*' :: '*' :: c :: cs =>
      if !atStart then .error (.partOfSegment (position - 1))
      else if c = '/' then do return anyPath :: (← read (position + 3) true cs)
      else .error (.partOfSegment (position + 2))
  | '*' :: cs => do return anyText :: (← read (position + 1) false cs)
  | '[' :: cs =>
      match h : bracket? cs with
      | none => .error (.badRange position)
      | some (t, rest) =>
          have := bracket?_length_lt h
          do return t :: (← read (position + 1 + (cs.length - rest.length)) false rest)
  | c :: cs => do return char c :: (← read (position + 1) (c == '/') cs)
termination_by cs => cs.length

/-- The character that a part stands for, if it is only one. -/
def char? : GlobToken → Option Char
  | char c => some c
  | _ => none

/-- Whether some end of a text satisfies a condition. -/
def someEnd (p : List Char → Bool) : List Char → Bool
  | [] => p []
  | c :: cs => p (c :: cs) || someEnd p cs

/-- Whether parts stand for a name. -/
def matchAll : List GlobToken → List Char → Bool
  | [], cs => cs.isEmpty
  | anyText :: ts, cs => someEnd (matchAll ts) cs
  | anyPath :: ts, cs => someEnd (matchAll ts) cs
  | _ :: _, [] => false
  | char d :: ts, c :: cs => c == d && matchAll ts cs
  | anyChar :: ts, _ :: cs => matchAll ts cs
  | oneOf s :: ts, c :: cs => s.contains c && matchAll ts cs
  | noneOf s :: ts, c :: cs => !s.contains c && matchAll ts cs

end GlobToken

/-- A segment of a pattern. -/
inductive GlobSegment where
  /-- A segment without wildcards. -/
  | literal (name : String)
  | wild (tokens : List GlobToken)
  /-- Any number of directories. -/
  | recursive
  deriving DecidableEq, Repr, Inhabited

namespace GlobSegment

def ofTokens (ts : List GlobToken) : GlobSegment :=
  if ts.contains .anyPath then recursive
  else
    match ts.mapM GlobToken.char? with
    | some cs => literal (String.ofList cs)
    | none => wild ts

/-- Whether a segment stands for a name. -/
def admits : GlobSegment → String → Bool
  | literal own, name => own == name
  | wild ts, name => GlobToken.matchAll ts name.toList
  | recursive, _ => true

/-- A segment that can stand for the dots in a directory starts with a dot. -/
def admitsDots : GlobSegment → String → Bool
  | wild (.char '.' :: ts), dots => GlobToken.matchAll (.char '.' :: ts) dots.toList
  | _, _ => false

end GlobSegment

structure Glob where
  isAbsolute : Bool
  segments : List GlobSegment
  /-- A pattern that ends in a slash stands for directories only. -/
  directoriesOnly : Bool
  deriving DecidableEq, Repr, Inhabited

namespace Glob

/-- One recursive segment for several in a row. -/
def collapse : List GlobSegment → List GlobSegment
  | .recursive :: .recursive :: rest => collapse (.recursive :: rest)
  | segment :: rest => segment :: collapse rest
  | [] => []

/-- Reads a pattern. The pattern as a whole must be well formed, and every segment. -/
def parse (text : String) : Except GlobFault Glob := do
  discard (GlobToken.read 0 true text.toList)
  let isAbsolute := text.toList.head? == some '/'
  let directoriesOnly := text.toList.getLast? == some '/'
  let relative := text.toList.dropWhile (· == '/')
  let pieces := Text.splitOn ['/'] relative
  let pieces := if directoriesOnly && 1 < pieces.length then pieces.dropLast else pieces
  let segments ← pieces.mapM fun cs => return GlobSegment.ofTokens (← GlobToken.read 0 true cs)
  return { isAbsolute, segments := collapse segments, directoriesOnly }

variable {m : Type → Type} [Monad m]

/-- The entry of a directory, which is not named if it is the working directory. -/
def within (directory : Path) (name : String) : Path :=
  if directory.same ⟨"."⟩ then ⟨name⟩ else directory.child name

/-- The names in a directory in order. -/
def sortedNames (files : Files m) (directory : Path) : m (List String) :=
  return (← files.entries directory).mergeSort (· ≤ ·)

/-- What is below a directory, with names: every entry before its own entries. -/
def descendants (files : Files m) : Nat → Path → m (List (Path × String))
  | 0, _ => return []
  | depth + 1, directory => do
      if ← files.isDirectory directory then
        let found ← (← sortedNames files directory).mapM fun name => do
          let entry := within directory name
          return (entry, name) :: (← descendants files depth entry)
        return found.flatten
      else return []

/-- The paths that segments stand for, seen from a directory, in order. -/
def expandFrom (files : Files m) : List GlobSegment → Path → m (List Path)
  | [], here => return [here]
  | .literal name :: rest, here => do
      let next := within here name
      let found ← if name = "." ∨ name = ".." then files.isDirectory here
        else Option.isSome <$> files.kind? next
      if found then expandFrom files rest next else return []
  | .recursive :: rest, here => do
      let below ← descendants files files.depth here
      match rest with
      | [] => return (← below.filterM fun entry => files.isDirectory entry.1).map (·.1)
      | segment :: rest =>
          let found ← (below.filter fun entry => segment.admits entry.2).mapM fun entry =>
            expandFrom files rest entry.1
          return found.flatten
  | .wild ts :: rest, here => do
      if ← files.isDirectory here then
        let special := ["..", "."].filter (GlobSegment.wild ts).admitsDots
        let dots ← special.mapM fun name => expandFrom files rest (here.child name)
        let names ← sortedNames files here
        let found ← (names.filter (GlobSegment.wild ts).admits).mapM fun name =>
          expandFrom files rest (within here name)
        return (dots ++ found).flatten
      else return []

/-- The paths that a pattern stands for, in order. -/
def expand (files : Files m) (g : Glob) : m (List Path) := do
  let found ← expandFrom files g.segments ⟨if g.isAbsolute then "/" else "."⟩
  if g.directoriesOnly then found.filterM files.isDirectory else return found

end Glob

end Stencil
