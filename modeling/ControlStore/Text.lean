/-! Text as lists of characters: which of them are blank, how a text falls into lines, words and
parts, which words are identifiers, and how digits are read as numbers. The line splitter serves
bytes and characters alike. -/
namespace ControlStore
namespace Text

/-- The code points of the Unicode property `White_Space`, as closed ranges in ascending order. -/
def blankRanges : List (Nat × Nat) :=
  [(0x9,0xD),(0x20,0x20),(0x85,0x85),(0xA0,0xA0),(0x1680,0x1680),(0x2000,0x200A),
    (0x2028,0x2029),(0x202F,0x202F),(0x205F,0x205F),(0x3000,0x3000)]

def isBlank (c : Char) : Bool :=
  blankRanges.any fun r => r.1 ≤ c.toNat && c.toNat ≤ r.2

example : (blankRanges.map fun r => r.2 + 1 - r.1).sum = 25 := by decide

def dropEnd {α : Type} [DecidableEq α] (x : α) (xs : List α) : List α :=
  if xs.getLast? = some x then xs.dropLast else xs

/-- The lines of a sequence. Each `newline` ends a line, one `ret` right before it belongs to the
ending, and the last line may lack an ending. -/
def linesWith {α : Type} [DecidableEq α] (newline ret : α) (xs : List α) : List (List α) :=
  let pieces := xs.splitOn newline
  pieces.dropLast.map (dropEnd ret) ++ pieces.getLast?.toList.filter (· ≠ [])

def lines (text : String) : List (List Char) :=
  linesWith '\n' '\r' text.toList

def byteLines (bytes : List UInt8) : List (List UInt8) :=
  linesWith 10 13 bytes

def unlines (ls : List String) : String :=
  String.join (ls.map (· ++ "\n"))

/-- The maximal runs of characters that are not blank. -/
def words (cs : List Char) : List (List Char) :=
  (cs.splitOnP isBlank).filter (· ≠ [])

def trim (cs : List Char) : List Char :=
  ((cs.dropWhile isBlank).reverse.dropWhile isBlank).reverse

def trimEnd {α : Type} [DecidableEq α] (x : α) (xs : List α) : List α :=
  (xs.reverse.dropWhile (· = x)).reverse

def cut {α : Type} [DecidableEq α] (x : α) (xs : List α) : Option (List α × List α) :=
  match xs.dropWhile (· ≠ x) with
  | [] => none
  | _ :: rest => some (xs.takeWhile (· ≠ x),rest)

/-- The search behind `cutAt`, which has passed `seen` in reverse. -/
def cutAtFrom {α : Type} [DecidableEq α] (mark seen : List α) : List α → Option (List α × List α)
  | [] => none
  | x :: xs =>
    if mark.isPrefixOf (x :: xs) then some (seen.reverse,(x :: xs).drop mark.length)
    else cutAtFrom mark (x :: seen) xs

/-- The parts before and after the first occurrence of a nonempty `mark`. -/
def cutAt {α : Type} [DecidableEq α] (mark xs : List α) : Option (List α × List α) :=
  cutAtFrom mark [] xs

/-- The part before the first occurrence of `mark`, or everything if there is none. -/
def before {α : Type} [DecidableEq α] (mark xs : List α) : List α :=
  match cutAt mark xs with
  | none => xs
  | some (front,_) => front

/-- A letter or underscore followed by letters, digits and underscores, all of them ASCII. -/
def isIdentifier (name : String) : Bool :=
  match name.toList with
  | [] => false
  | c :: cs => (c.isAlpha || c = '_') && cs.all fun d => d.isAlphanum || d = '_'

/-- The value of a digit in `base`; letters of either case count from ten. -/
def digit? (base : Nat) (c : Char) : Option Nat :=
  let value :=
    if '0' ≤ c ∧ c ≤ '9' then c.toNat - '0'.toNat
    else if 'a' ≤ c ∧ c ≤ 'f' then c.toNat - 'a'.toNat + 10
    else if 'A' ≤ c ∧ c ≤ 'F' then c.toNat - 'A'.toNat + 10
    else base
  if value < base then some value else none

/-- The value of one or more digits, most significant first. -/
def readDigits (base : Nat) : List Char → Option Nat
  | [] => none
  | cs => cs.foldlM (fun n c => (digit? base c).map (base * n + ·)) 0

def dropPlus : List Char → List Char
  | '+' :: cs => cs
  | cs => cs

/-- A number below `limit`: digits after at most one plus sign. -/
def readNumber (base limit : Nat) (cs : List Char) : Option Nat :=
  (readDigits base (dropPlus cs)).filter (· < limit)

def padLeft (width : Nat) (s : String) : String :=
  String.ofList (s.toList.leftpad width ' ')

def padRight (width : Nat) (s : String) : String :=
  String.ofList (s.toList.rightpad width ' ')

end Text
end ControlStore
