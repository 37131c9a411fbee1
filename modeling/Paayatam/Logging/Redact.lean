/-
  Paayatam.Logging.Redact

  `redact`: what of a value may reach a log line.

  A field is replaced by its name, wherever it stands, and every string is swept
  by four expressions, one over what the other has left.
-/

import Paayatam.Dates
import Paayatam.Lib.Digits
import Paayatam.Privacy.Sanitizer

namespace Paayatam

open Lib Lib.Gregorian

namespace Redact

open Sanitizer (exactly ignoringCase isWord)

/-- Field names whose value is replaced, wherever they appear. -/
def REDACTED_FIELDS : List String :=
  ["telegramUserId", "telegram_user_id", "usernameCached", "username_cached", "firstNameCached",
    "first_name_cached", "initData", "init_data", "password", "passwordHash", "password_hash",
    "totpSecret", "totpSecretEnc", "totp_secret_enc", "totpCode", "token", "accessToken",
    "refreshToken", "access_token", "refresh_token", "sessionToken", "session_token", "csrfToken",
    "csrf_token", "authorization", "cookie", "secret", "apiKey", "api_key", "bodyCiphertext",
    "body_ciphertext", "bodyNonce", "body_nonce", "chatEncryptionKey", "CHAT_ENCRYPTION_KEY",
    "phone", "phoneNumber", "phone_number", "ip", "ipAddress", "ip_address", "email"]

def REDACTED : List Char := "[redacted]".toList

/-! ## The expressions -/

/-- `[A-Za-z0-9_-]`. -/
def isTokenChar (c : Char) : Bool := isWord c || c == '-'

/-- `[A-Za-z0-9_+]`. -/
def isLinkChar (c : Char) : Bool := isWord c || c == '+'

/-- `[A-Za-z0-9._-]`. -/
def isBearerChar (c : Char) : Bool := isWord c || c == '.' || c == '-'

/-- An Iranian mobile number in either form. -/
def PHONE : Regex Char :=
  .seq (.alt (exactly "+98") (exactly "0")) (.seq (exactly "9") (.many Char.isDigit 9 (some 9)))

/-- What makes a bot token, wherever it begins: digits, a colon, and a run of symbols. -/
def TOKEN_BODY : Regex Char :=
  .seq (.many Char.isDigit 6 (some 12)) (.seq (exactly ":") (.many isTokenChar 30 (some 60)))

/-- A Telegram bot token. -/
def TOKEN : Regex Char :=
  .seq (.boundary isWord) (.seq (.many Char.isDigit 6 (some 12)) (.seq (exactly ":")
    (.seq (.many isTokenChar 30 (some 60)) (.boundary isWord))))

/-- A `t.me` link. -/
def LINK : Regex Char :=
  .seq (.opt (.seq (ignoringCase "http") (.seq (.opt (ignoringCase "s")) (ignoringCase "://"))))
    (.seq (ignoringCase "t.me/") (.many isLinkChar 1 none))

/-- A bearer token. -/
def BEARER : Regex Char :=
  .seq (ignoringCase "Bearer") (.seq (.many isTrimmed 1 none) (.many isBearerChar 1 none))

/-- `Bearer ${REDACTED}`. -/
def BEARER_REDACTED : List Char := "Bearer ".toList ++ REDACTED

def PATTERNS : List (Regex Char × List Char) :=
  [(PHONE, REDACTED), (TOKEN, REDACTED), (LINK, REDACTED), (BEARER, BEARER_REDACTED)]

/-- `out.replaceAll(pattern, replacement)`. -/
def sweep (p : Regex Char × List Char) (out : List Char) : List Char :=
  replaceAll p.1.pattern (fun _ => p.2) out

def redactString (value : List Char) : List Char := PATTERNS.foldl (fun out p => sweep p out) value

/-! ## Values -/

/-- A value without cycles.  A number, a symbol and a function are never looked
    into; of a date there is its time, or none. -/
inductive Value where
  | undefined
  | null
  | boolean (b : Bool)
  | number (bits : UInt64)
  | symbol (id : Nat)
  | function (id : Nat)
  | string (s : List Char)
  | bigint (n : Int)
  | array (entries : List Value)
  | view (byteLength : Nat)
  | date (time : Option Int)
  | error (name message : List Char)
  | object (entries : List (List Char × Value))

/-- The parts of a date and a time of a day, as `toISOString` writes them. -/
def isoYear (year : Int) : List Char :=
  if 0 ≤ year ∧ year ≤ 9999 then fixedDigits 4 year.toNat
  else (if year < 0 then '-' else '+') :: fixedDigits 6 year.natAbs

/-- `Date.prototype.toISOString`, of a valid time. -/
def toISOString (time : Int) : List Char :=
  let date := ofDayNumber (time / MS_PER_DAY)
  let rest := (time % MS_PER_DAY).toNat
  isoYear date.year ++ '-' :: (fixedDigits 2 date.month ++ '-' :: (fixedDigits 2 date.day ++
    'T' :: (fixedDigits 2 (rest / 3600000) ++ ':' :: (fixedDigits 2 (rest / 60000 % 60) ++
    ':' :: (fixedDigits 2 (rest / 1000 % 60) ++ '.' :: (fixedDigits 3 (rest % 1000) ++ ['Z']))))))

def MAX_DEPTH : Nat := 8

/-- What is too deep is not looked at. -/
def capped (depth : Nat) (result : Option Value) : Option Value :=
  if MAX_DEPTH < depth then some (.string REDACTED) else result

section Lower

-- `String.prototype.toLowerCase`
variable (lower : List Char → List Char)

def isSensitive (field : List Char) : Bool :=
  REDACTED_FIELDS.any fun sensitive => lower sensitive.toList == lower field

mutual

/-- `redact`; a date that is none throws.  An entry under `__proto__` becomes no
    entry of the result. -/
def redact (depth : Nat) : Value → Option Value
  | .undefined => capped depth (some .undefined)
  | .null => capped depth (some .null)
  | .boolean b => capped depth (some (.boolean b))
  | .number bits => capped depth (some (.number bits))
  | .symbol id => capped depth (some (.symbol id))
  | .function id => capped depth (some (.function id))
  | .string s => capped depth (some (.string (redactString s)))
  | .bigint n => capped depth (some (.string (toString n).toList))
  | .array entries => capped depth ((redactAll (depth + 1) entries).map .array)
  | .view byteLength => capped depth (some (.string s!"[binary {byteLength}B]".toList))
  | .date time => capped depth (time.map fun time => .string (toISOString time))
  | .error name message =>
    capped depth (some (.object [("name".toList, .string name),
      ("message".toList, .string (redactString message))]))
  | .object entries => capped depth ((redactEntries (depth + 1) entries).map .object)

def redactAll (depth : Nat) : List Value → Option (List Value)
  | [] => some []
  | entry :: entries =>
    match redact depth entry, redactAll depth entries with
    | some r, some rs => some (r :: rs)
    | _, _ => none

def redactEntries (depth : Nat) : List (List Char × Value) → Option (List (List Char × Value))
  | [] => some []
  | (key, entry) :: entries =>
    match if isSensitive lower key then some (.string REDACTED) else redact depth entry,
      redactEntries depth entries with
    | some r, some rs => some (if key = "__proto__".toList then rs else (key, r) :: rs)
    | _, _ => none

end

end Lower

end Redact

end Paayatam
