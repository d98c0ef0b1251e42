import OrderedStore.Toml.Scalar

/-! # TOML documents

A document of settings has at most one entry in a line: a name, an equals sign and a scalar. Tables
and dotted names, which no settings use, count as unreadable. Blank lines and comments stand
anywhere, and a line ends in a line feed, with or without a carriage return before it.
-/

namespace OrderedStore.Toml

def isBlank (c : Char) : Bool := c = ' ' || c = '\t'

/-- Characters that comments and quoted names may hold: no control characters but tabs. -/
def isPrintable (c : Char) : Bool := c = '\t' || (32 ≤ c.toNat && c.toNat ≠ 127)

def isBare (c : Char) : Bool :=
  ('a' ≤ c && c ≤ 'z') || ('A' ≤ c && c ≤ 'Z') || ('0' ≤ c && c ≤ '9') || c = '_' || c = '-'

def skipBlanks (text : List Char) : List Char := text.dropWhile isBlank

def escaped? : Char → Option Char
  | 'b' => some '\x08'
  | 't' => some '\t'
  | 'n' => some '\n'
  | 'f' => some '\x0c'
  | 'r' => some '\r'
  | '"' => some '"'
  | '\\' => some '\\'
  | _ => none

/-- The character with a code, if it is the code of one. -/
def character? (code : Nat) : Option Char :=
  if code.isValidChar then some (Char.ofNat code) else none

/-- Where a reader of quoted text stands. -/
inductive Quoting where
  | plain
  | escape
  /-- Before the last `missing` hexadecimal digits of a code, whose first digits spell `high`. -/
  | code (missing high : Nat)

/-- The rest of a name in double quotes, and what follows the closing quote. `name` holds the
characters of the name so far, the last one first. -/
def quoted? (name : List Char) : Quoting → List Char → Option (List Char × List Char)
  | _, [] => none
  | .plain, c :: rest =>
    if c = '"' then some (name.reverse, rest)
    else if c = '\\' then quoted? name .escape rest
    else if isPrintable c then quoted? (c :: name) .plain rest
    else none
  | .escape, c :: rest =>
    if c = 'u' then quoted? name (.code 4 0) rest
    else if c = 'U' then quoted? name (.code 8 0) rest
    else
      match escaped? c with
      | none => none
      | some d => quoted? (d :: name) .plain rest
  | .code missing high, c :: rest =>
    match digit? 16 c with
    | none => none
    | some d =>
      if 1 < missing then quoted? name (.code (missing - 1) (16 * high + d)) rest
      else
        match character? (16 * high + d) with
        | none => none
        | some d => quoted? (d :: name) .plain rest

/-- The name at the head of `text`, bare or in quotes, and what follows it. -/
def name? (text : List Char) : Option (List Char × List Char) :=
  match text with
  | '"' :: rest => quoted? [] .plain rest
  | '\'' :: rest =>
    let name := rest.takeWhile fun c => isPrintable c && c ≠ '\''
    match rest.drop name.length with
    | '\'' :: rest => some (name, rest)
    | _ => none
  | _ =>
    let name := text.takeWhile isBare
    if name.isEmpty then none else some (name, text.drop name.length)

/-- Whether nothing but blanks and a comment is left of a line. -/
def isEnd (text : List Char) : Bool :=
  match skipBlanks text with
  | [] => true
  | c :: rest => c = '#' && rest.all isPrintable

abbrev Setting := String × Scalar

/-- The setting in a line that has one. -/
def setting? (line : List Char) : Option Setting :=
  match name? (skipBlanks line) with
  | none => none
  | some (name, rest) =>
    match skipBlanks rest with
    | '=' :: rest =>
      let rest := skipBlanks rest
      let value := rest.takeWhile fun c => !isBlank c && c ≠ '#'
      if isEnd (rest.drop value.length) then
        (Scalar.read? value).map (String.ofList name, ·)
      else none
    | _ => none

/-- The setting of a line, or none where it has none; a malformed line gives no answer. -/
def line? (line : List Char) : Option (Option Setting) :=
  if isEnd line then some none else (setting? line).map some

/-- A line without the carriage return that may precede its line feed. -/
def withoutReturn (line : List Char) : List Char :=
  if line.getLast? = some '\r' then line.dropLast else line

/-- The lines of a text, each without its end. The last one has none. -/
def lines (text : List Char) : List (List Char) :=
  let parts := text.splitOn '\n'
  parts.dropLast.map withoutReturn ++ parts.getLast?.toList

/-- A text without the byte order mark that may precede it. -/
def withoutMark : List Char → List Char
  | '\ufeff' :: text => text
  | text => text

/-- The settings of a document in their order, none of them twice. -/
def parse? (text : String) : Option (List Setting) := do
  let found ← (lines (withoutMark text.toList)).mapM line?
  let settings := found.filterMap id
  if (settings.map (·.1)).Nodup then some settings else none

/-- What the settings of a document make of `start`, one after the other. -/
def configure? {α : Type} (set? : α → Setting → Option α) (start : α) (text : String) : Option α :=
  (parse? text).bind fun settings => settings.foldlM set? start

end OrderedStore.Toml
