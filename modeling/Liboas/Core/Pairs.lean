import Liboas.Core.Error

/-!
# Query strings and cookie headers (`oas_query.c`, `oas_cookie.c`)

Both are lists of `name=value`. An array that stays null is `none`.
-/

namespace Liboas

/-! ## Percent decoding -/

/-- `hex_digit`. -/
def hexDigit (c : UInt8) : Option UInt8 :=
  if 48 ≤ c ∧ c ≤ 57 then some (c - 48)
  else if 97 ≤ c ∧ c ≤ 102 then some (c - 97 + 10)
  else if 65 ≤ c ∧ c ≤ 70 then some (c - 65 + 10)
  else none

/-- `%` with two hex digits is decoded; `plain` and `decoded` say what becomes of a byte
that stands for itself and of one that was decoded. -/
def decodeWith (plain : UInt8 → UInt8) (decoded : UInt8 → Bytes) : Bytes → Bytes
  | [] => []
  | 37 :: hi :: lo :: rest =>
    match hexDigit hi, hexDigit lo with
    | some hi, some lo => decoded (hi * 16 + lo) ++ decodeWith plain decoded rest
    | _, _ => 37 :: decodeWith plain decoded (hi :: lo :: rest)
  | b :: rest => plain b :: decodeWith plain decoded rest

/-- `url_decode`: a plus is a space. -/
def urlDecode (src : Bytes) : CStr :=
  .ofBytes (decodeWith (fun b => if b = 43 then 32 else b) (fun b => [b]) src)

/-- `percent_decode`: a decoded NUL is left out. -/
def percentDecode (src : Bytes) : CStr :=
  .ofBytes (decodeWith id (fun b => if b = 0 then [] else [b]) src)

/-! ## Pairs -/

/-- The text before the first `=` and the text behind it, if there is one. -/
def cutEquals (segment : Bytes) : Bytes × Option Bytes :=
  (segment.takeWhile (· != 61), (segment.dropWhile (· != 61)).tail?)

/-- The segments between the `&`. Nothing stands behind the last one. -/
def querySegments (segment : Bytes) : Bytes → List Bytes
  | [] => if segment.isEmpty then [] else [segment]
  | 38 :: rest => segment :: querySegments [] rest
  | b :: rest => querySegments (segment ++ [b]) rest

def queryPair (segment : Bytes) : CStr × CStr :=
  match cutEquals segment with
  | (key, some value) => (urlDecode key, urlDecode value)
  | (key, none) => (urlDecode key, .ofBytes [])

/-- `oas_query_parse`. -/
def oasQueryParse (queryString : CStr) : Option (List (CStr × CStr)) :=
  if queryString.bytes.isEmpty then none
  else some ((querySegments [] queryString.bytes).map queryPair)

/-- The segments between a semicolon with a space. -/
def cookieSegments (segment : Bytes) : Bytes → List Bytes
  | [] => if segment.isEmpty then [] else [segment]
  | 59 :: 32 :: rest => segment :: cookieSegments [] rest
  | b :: rest => cookieSegments (segment ++ [b]) rest

def cookiePair (segment : Bytes) : CStr × CStr :=
  match cutEquals segment with
  | (name, some value) => (.ofBytes name, percentDecode value)
  | (name, none) => (.ofBytes name, .ofBytes [])

/-- `oas_cookie_parse`. -/
def oasCookieParse (header : CStr) : Option (List (CStr × CStr)) :=
  if header.bytes.isEmpty then none
  else some ((cookieSegments [] header.bytes).map cookiePair)

end Liboas
