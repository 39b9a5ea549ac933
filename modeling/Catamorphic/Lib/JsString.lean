import Mathlib.Data.List.Basic

/-!
# Strings as UTF-16 code units

A JavaScript string is a list of code units. This file has the parts of the
language's library that turn one into other alphabets: its scalar values (a pair of
surrogates is one, a lone surrogate is none), its UTF-8 bytes, its URI component,
its base64 and its body as a JSON string.
-/

namespace Catamorphic

/-- A string, as its UTF-16 code units. -/
abbrev Text := List UInt16

instance : LawfulBEq Text := inferInstance

namespace Text

/-- A literal of the source; all of them lie in the basic plane. -/
def ofString (s : String) : Text := s.toList.map (fun c => UInt16.ofNat c.toNat)

def isHigh (u : UInt16) : Bool := 0xD800 ≤ u.toNat && u.toNat < 0xDC00
def isLow (u : UInt16) : Bool := 0xDC00 ≤ u.toNat && u.toNat < 0xE000

/-- A scalar value, or a surrogate without its other half. -/
inductive Scalar where
  | value (n : Nat)
  | lone (u : UInt16)
deriving DecidableEq, Repr

def scalars : Text → List Scalar
  | [] => []
  | [a] => [if isHigh a || isLow a then .lone a else .value a.toNat]
  | a :: b :: rest =>
    if isHigh a && isLow b then
      .value (0x10000 + (a.toNat - 0xD800) * 0x400 + (b.toNat - 0xDC00)) :: scalars rest
    else
      (if isHigh a || isLow a then .lone a else .value a.toNat) :: scalars (b :: rest)

/-- The UTF-8 bytes of a scalar value. -/
def utf8Of (n : Nat) : List Nat :=
  if n < 0x80 then [n]
  else if n < 0x800 then [0xC0 + n / 0x40, 0x80 + n % 0x40]
  else if n < 0x10000 then [0xE0 + n / 0x1000, 0x80 + n / 0x40 % 0x40, 0x80 + n % 0x40]
  else [0xF0 + n / 0x40000, 0x80 + n / 0x1000 % 0x40, 0x80 + n / 0x40 % 0x40, 0x80 + n % 0x40]

/-- `Buffer.from(text)`: a lone surrogate is written as the replacement character. -/
def bytes (t : Text) : List Nat :=
  (scalars t).flatMap (fun
    | .value n => utf8Of n
    | .lone _ => utf8Of 0xFFFD)

def digit (table : String) (i : Nat) : UInt16 := (ofString table).getD i 0

/-- The characters `encodeURIComponent` leaves alone. -/
def unreserved (n : Nat) : Bool :=
  ("ABCDEFGHIJKLMNOPQRSTUVWXYZabcdefghijklmnopqrstuvwxyz0123456789-_.!~*'()".toList.map
    Char.toNat).contains n

/-- `encodeURIComponent`; `none` where it throws, which is at a lone surrogate. -/
def encodeURIComponent (t : Text) : Option Text :=
  (scalars t).foldr (fun s rest => do
    let tail ← rest
    match s with
    | .lone _ => none
    | .value n =>
      if unreserved n then some (UInt16.ofNat n :: tail)
      else some ((utf8Of n).flatMap (fun b =>
        [UInt16.ofNat 0x25, digit "0123456789ABCDEF" (b / 16),
          digit "0123456789ABCDEF" (b % 16)]) ++ tail)) (some [])

def hex4 (n : Nat) : Text :=
  [digit "0123456789abcdef" (n / 0x1000 % 16), digit "0123456789abcdef" (n / 0x100 % 16),
    digit "0123456789abcdef" (n / 0x10 % 16), digit "0123456789abcdef" (n % 16)]

/-- What `JSON.stringify` writes between the quotes of a string. -/
def jsonBody (t : Text) : Text :=
  (scalars t).flatMap (fun
    | .lone u => ofString "\\u" ++ hex4 u.toNat
    | .value n =>
      if n = 0x22 then ofString "\\\""
      else if n = 0x5C then ofString "\\\\"
      else if n = 0x08 then ofString "\\b"
      else if n = 0x09 then ofString "\\t"
      else if n = 0x0A then ofString "\\n"
      else if n = 0x0C then ofString "\\f"
      else if n = 0x0D then ofString "\\r"
      else if n < 0x20 then ofString "\\u" ++ hex4 n
      else if n < 0x10000 then [UInt16.ofNat n]
      else [UInt16.ofNat (0xD800 + (n - 0x10000) / 0x400),
        UInt16.ofNat (0xDC00 + (n - 0x10000) % 0x400)])

/-- Base64 over an alphabet of 64 characters, with its padding. -/
def base64With (table : String) : List Nat → Text
  | [] => []
  | [a] => [digit table (a / 4), digit table (a % 4 * 16), 0x3D, 0x3D]
  | [a, b] =>
    [digit table (a / 4), digit table (a % 4 * 16 + b / 16), digit table (b % 16 * 4), 0x3D]
  | a :: b :: c :: rest =>
    [digit table (a / 4), digit table (a % 4 * 16 + b / 16), digit table (b % 16 * 4 + c / 64),
      digit table (c % 64)] ++ base64With table rest

def base64Table : String := "ABCDEFGHIJKLMNOPQRSTUVWXYZabcdefghijklmnopqrstuvwxyz0123456789+/"
def base64urlTable : String := "ABCDEFGHIJKLMNOPQRSTUVWXYZabcdefghijklmnopqrstuvwxyz0123456789-_"

/-- `text.replace(/=+$/, "")` -/
def unpadded (t : Text) : Text := (t.reverse.dropWhile (· == 0x3D)).reverse

/-- `Buffer.from(text).toString("base64")` -/
def base64 (t : Text) : Text := base64With base64Table (bytes t)

/-- `Buffer.from(text).toString("base64url")`: the other alphabet, without padding. -/
def base64url (t : Text) : Text := unpadded (base64With base64urlTable (bytes t))

/-- `value.replace(/\r\n/g, "\n")` -/
def crlfToLf : Text → Text
  | [] => []
  | [a] => [a]
  | a :: b :: rest =>
    if a = 0x0D ∧ b = 0x0A then 0x0A :: crlfToLf rest else a :: crlfToLf (b :: rest)

/-- `value.replace(/\n/g, "\r\n")` -/
def lfToCrlf (t : Text) : Text := t.flatMap (fun a => if a = 0x0A then [0x0D, 0x0A] else [a])

/-- A text of whole characters as its code units. -/
def ofChars (s : List Char) : Text :=
  s.flatMap (fun c =>
    if c.toNat < 0x10000 then [UInt16.ofNat c.toNat]
    else [UInt16.ofNat (0xD800 + (c.toNat - 0x10000) / 0x400),
      UInt16.ofNat (0xDC00 + (c.toNat - 0x10000) % 0x400)])

/-- The white space `String.prototype.trim` removes. -/
def isSpace (c : Char) : Bool :=
  let n := c.toNat
  (0x09 ≤ n && n ≤ 0x0D) || n == 0x20 || n == 0xA0 || n == 0x1680 ||
    (0x2000 ≤ n && n ≤ 0x200A) || n == 0x2028 || n == 0x2029 || n == 0x202F || n == 0x205F ||
    n == 0x3000 || n == 0xFEFF

/-- `text.trim()` -/
def trim (s : List Char) : List Char :=
  ((s.dropWhile isSpace).reverse.dropWhile isSpace).reverse

/-- `value.split("\n")` -/
def lines : Text → List Text
  | [] => [[]]
  | a :: rest =>
    if a = 0x0A then [] :: lines rest
    else match lines rest with
      | [] => [[a]]
      | l :: ls => (a :: l) :: ls

example : base64 (ofString "secret!") = ofString "c2VjcmV0IQ==" := by decide
example : jsonBody (ofString "a\"b\n") = ofString "a\\\"b\\n" := by decide
example : encodeURIComponent (ofString "a b") = some (ofString "a%20b") := by decide

end Text

end Catamorphic
