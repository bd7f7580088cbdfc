import AtlasNative.S3.Listing

/-!
# Pages of a listing

What a client sees of a listing: pages of at most a thousand entries, each with the point to go on
from, which the second version of the request hides in a continuation token.
-/

namespace AtlasNative.S3

open Program

/-- What a request fails with. -/
inductive S3Error where
  | accessDenied (m : Option String)
  | noSuchBucket
  | noSuchKey
  | noSuchUpload
  | invalidArgument (m : String)
  | objectConflict (m : String)
  | quotaExceeded (m : String)
  | invalidPart (m : String)
  | entityTooSmall (m : String)
  | badDigest
  | internalError (m : String)
  | preconditionFailed (m : Option String)
  | notModified
  | notImplemented (m : String)
  | invalidRequest (m : String)
  | invalidRange
  | malformedXML (m : String)
  | incompleteBody
  | invalidDigest
  | bucketAlreadyOwnedByYou
deriving DecidableEq, Repr

/-- The number that the message of a failure shows. -/
def Errno.code : Errno → Nat
  | noent => 2
  | io => 5
  | exist => 17
  | notdir => 20
  | isdir => 21
  | inval => 22
  | rofs => 30
  | nametoolong => 36
  | notempty => 39
  | nodata => 61
  | dquot => 122

def s3Err : StoreError → S3Error
  | .noSuchKey => .noSuchKey
  | .noSuchUpload => .noSuchUpload
  | .invalidKey m | .invalid m => .invalidArgument m
  | .conflict m => .objectConflict m
  | .readOnly => .accessDenied (some "the bucket is read-only")
  | .quota => .quotaExceeded "the filesystem's quota is exhausted"
  | .invalidPart m => .invalidPart m
  | .tooSmall number => .entityTooSmall s!"part {number} is smaller than 5 MiB and not the last part"
  | .badDigest => .badDigest
  | .io e => .internalError s!"filesystem error (errno {e.code})"

/-! ### Tokens -/

def utf8 (t : Text) : Bytes := t.flatMap String.utf8EncodeChar

/-- A digit of a byte in hex. -/
def hexChar (n : Nat) : Char := Nat.digitChar n

def hex (bytes : Bytes) : Text :=
  bytes.flatMap fun b => [hexChar (b.toNat / 16), hexChar (b.toNat % 16)]

/-- A digit in base 16. -/
def hexDigit (c : Char) : Option Nat :=
  if '0' ≤ c ∧ c ≤ '9' then some (c.toNat - '0'.toNat)
  else if 'a' ≤ c ∧ c ≤ 'f' then some (c.toNat - 'a'.toNat + 10)
  else if 'A' ≤ c ∧ c ≤ 'F' then some (c.toNat - 'A'.toNat + 10)
  else none

/-- `u8::from_str_radix` of two characters, base 16: a sign is allowed. -/
def byteOf (a b : Char) : Option UInt8 :=
  if a = '+' then (hexDigit b).map UInt8.ofNat
  else do
    let hi ← hexDigit a
    let lo ← hexDigit b
    pure (UInt8.ofNat (16 * hi + lo))

def bytesOf : Text → Option Bytes
  | [] => some []
  | [_] => none
  | a :: b :: t => do
    let byte ← byteOf a b
    let rest ← bytesOf t
    pure (byte :: rest)

/-- Continuation tokens are the hex of the last key returned: opaque and XML-safe. -/
def decodeToken (t : Text) : Except S3Error Text :=
  match (bytesOf t).bind fun bytes => bytes.toByteArray.utf8Decode? with
  | some key => .ok key.toList
  | none => .error (.invalidArgument "the continuation token is not valid")

/-- Percent-encodes a key for `encoding-type=url` listings (`/` and unreserved bytes pass). -/
def urlEncode (t : Text) : Text :=
  (utf8 t).flatMap fun b =>
    let c := Char.ofNat b.toNat
    if b < 128 ∧ (c.isAlphanum ∨ c ∈ "-._~/".toList) then [c]
    else '%' :: [(hexChar (b.toNat / 16)).toUpper, (hexChar (b.toNat % 16)).toUpper]

/-! ### Pages -/

structure ListedContent (D : Type) where
  key : Text
  size : Nat
  lastModifiedNs : Int
  etag : ETag D
deriving DecidableEq

/-- One listing page. -/
structure Page (D : Type) where
  contents : List (ListedContent D)
  prefixes : List Text
  truncated : Bool
  /-- The last key or prefix returned (raw). -/
  next : Option Text
  max : Nat
  url : Bool

def Page.enc {D : Type} (p : Page D) (t : Text) : Text := if p.url then urlEncode t else t

def ListedItem.text {D : Type} : ListedItem D → Text
  | .object key _ => key
  | .commonPrefix p => p

/-- How many entries a page holds. -/
def pageSize (maxKeys : Option Int) : Nat := (max 0 (min (maxKeys.getD 1000) 1000)).toNat

/-- Not before the epoch. -/
def timestamp (ns : Int) : Int := max 0 ns

/-- One more entry of a page. -/
def Page.add {D : Type} (p : Page D) (l : ListedItem D) : Page D :=
  let p := { p with next := some l.text }
  match l with
  | .object key o => { p with contents := p.contents ++ [⟨p.enc key, o.size, timestamp o.mtimeNs, o.etag⟩] }
  | .commonPrefix cp => { p with prefixes := p.prefixes ++ [p.enc cp] }

/-- The parameters of a listing (the second version of the request). -/
structure ListInput where
  keyPrefix : Option Text := none
  delimiter : Option Text := none
  continuationToken : Option Text := none
  startAfter : Option Text := none
  maxKeys : Option Int := none
  /-- `encoding-type=url`. -/
  url : Bool := false

/-- The resume point: the token, or `startAfter` if it is later. -/
def ListInput.resumesAfter (input : ListInput) : Except S3Error (Option Text) :=
  match input.continuationToken with
  | none => .ok input.startAfter
  | some t => (decodeToken t).map fun t => match input.startAfter with
    | some s => some (if s < t then t else s)
    | none => some t

structure ListOutput (D : Type) where
  keyPrefix : Option Text
  delimiter : Option Text
  startAfter : Option Text
  continuationToken : Option Text
  nextContinuationToken : Option Text
  maxKeys : Nat
  keyCount : Nat
  isTruncated : Bool
  contents : List (ListedContent D)
  commonPrefixes : List Text
deriving DecidableEq

namespace Bucket

variable {Req : Type} {Rep : Req → Type} {D : Type} (b : Bucket Rep D)

abbrev Service (Rep : Req → Type) (α : Type) := ExceptT S3Error (Client Rep) α

/-- A store call, with its failure as a client sees it. -/
def blocking {α : Type} (x : Store Rep α) : Service Rep α := ExceptT.mk do
  match ← x.run with
  | .ok a => pure (.ok a)
  | .error e => pure (.error (s3Err e))

def listPage (depth : Nat) (keyPrefix delimiter after : Option Text) (maxKeys : Option Int) (url : Bool) :
    Service Rep (Page D) := do
  let max := pageSize maxKeys
  let (items, truncated) ← blocking (b.list depth (keyPrefix.getD []) delimiter after max)
  pure (items.foldl Page.add ⟨[], [], truncated, none, max, url⟩)

def listObjectsV2 (depth : Nat) (input : ListInput) : Service Rep (ListOutput D) := do
  let after ← ExceptT.mk (pure input.resumesAfter)
  let page ← b.listPage depth input.keyPrefix input.delimiter after input.maxKeys input.url
  pure {
    keyPrefix := input.keyPrefix.map page.enc
    delimiter := input.delimiter.map page.enc
    startAfter := input.startAfter.map page.enc
    continuationToken := input.continuationToken
    nextContinuationToken := (page.next.filter fun _ => page.truncated).map fun k => hex (utf8 k)
    maxKeys := page.max
    keyCount := page.contents.length + page.prefixes.length
    isTruncated := page.truncated
    contents := page.contents
    commonPrefixes := page.prefixes }

end Bucket

end AtlasNative.S3
