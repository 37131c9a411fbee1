/-
  Paayatam.Conversation.Wizards

  The wizards of the bot: what each step accepts, writes and refuses.

  Prompts and options are left out.  A step's answers arrive as text, whatever
  its buttons offer, so each `accept` checks the value it is handed.
-/

import Paayatam.Conversation.Wizard
import Mathlib.Data.List.Infix

namespace Paayatam

namespace Conversation

/-! ## Answers -/

def ECHO_LIMIT : Nat := 40

/-- The longest prefix within so many UTF-16 units. -/
def takeUnits : Nat → List Char → List Char
  | _, [] => []
  | limit, c :: rest =>
    let units := if 0x10000 ≤ c.toNat then 2 else 1
    if units ≤ limit then c :: takeUnits (limit - units) rest else []

/-- `replace(/\s+/g, ' ')`. -/
def collapseSpaces : List Char → List Char
  | [] => []
  | c :: rest =>
    if isTrimmed c then
      if rest.head?.any isTrimmed then collapseSpaces rest else ' ' :: collapseSpaces rest
    else c :: collapseSpaces rest

/-- What the user sent, as a refusal echoes it. -/
def quoted (value : String) : String :=
  let collapsed := trim (String.ofList (collapseSpaces value.toList))
  if collapsed.isEmpty then ""
  else if ECHO_LIMIT < utf16Length collapsed then
    s!"«{String.ofList (takeUnits ECHO_LIMIT collapsed.toList)}…»"
  else s!"«{collapsed}»"

/-- The digits of a number, in Persian. -/
def toPersianDigits (n : Int) : String :=
  String.ofList ((toString n).toList.map fun c =>
    if c.isDigit then Char.ofNat (c.toNat - 0x30 + 0x6f0) else c)

def characters (count : Nat) : String := s!"{toPersianDigits count} حرف"

def wrongShape (input : WizardInput) (what : String) : String :=
  if input.kind = .photo then s!"این مرحله عکس نمی‌گیره. {what} رو بنویس و بفرست."
  else s!"این مرحله با دکمه جواب داده نمیشه. {what} رو بنویس و بفرست."

def acceptText (input : WizardInput) (min max : Nat) (what : String) : Except String String :=
  if input.kind ≠ .text then .error (wrongShape input what)
  else
    let value := trim input.value
    let length := utf16Length value
    if length < min then
      let received := if length = 0 then "چیزی توی پیامت نبود"
        else s!"{quoted value} {characters length} بود"
      .error s!"{what} باید دست‌کم {characters min} باشه؛ {received}."
    else if max < length then
      .error (s!"{what} نباید بیشتر از {characters max} باشه؛ " ++
        s!"چیزی که فرستادی {characters length} بود. " ++
        s!"{toPersianDigits (length - max : Nat)} حرف کوتاه‌ترش کن.")
    else .ok value

/-- Persian and Arabic digits, in ASCII. -/
def toAsciiDigits (value : String) : String :=
  String.ofList (value.toList.map fun c =>
    if 0x6f0 ≤ c.toNat ∧ c.toNat ≤ 0x6f9 then Char.ofNat (c.toNat - 0x6f0 + 0x30)
    else if 0x660 ≤ c.toNat ∧ c.toNat ≤ 0x669 then Char.ofNat (c.toNat - 0x660 + 0x30)
    else c)

/-- The value of a list of ASCII digits. -/
def digitsValue (digits : List Char) : Nat :=
  digits.foldl (fun n c => n * 10 + (c.toNat - 0x30)) 0

def acceptInteger (input : WizardInput) (min max : Int) (what : String) : Except String Int :=
  let typed := trim input.value
  let raw := (toAsciiDigits typed).toList.filter fun c =>
    !(c == ',' || c.toNat == 0x66c || isTrimmed c)
  if raw = [] then .error s!"{what} رو با عدد بنویس؛ پیامت خالی بود."
  else if !(raw.all Char.isDigit && decide (raw.length ≤ 9)) then
    .error s!"{what} رو فقط با عدد بنویس؛ {quoted typed} عدد نیست."
  else
    let value : Int := digitsValue raw
    if value < min ∨ max < value then
      .error (s!"{what} باید بین {toPersianDigits min} و {toPersianDigits max} باشه؛ " ++
        s!"{toPersianDigits value} فرستادی.")
    else .ok value

def isHexDigit (c : Char) : Bool :=
  c.isDigit || ('a' ≤ c && c ≤ 'f') || ('A' ≤ c && c ≤ 'F')

/-- The shape of a uuid, in either case. -/
def isUuid (value : String) : Bool :=
  decide (value.toList.length = 36) && value.toList.zipIdx.all fun p =>
    if p.2 = 8 ∨ p.2 = 13 ∨ p.2 = 18 ∨ p.2 = 23 then p.1 == '-' else isHexDigit p.1

/-- `YYYY-MM-DD`; a day or month out of range rolls over and is taken. -/
def isIsoDay (value : String) : Bool :=
  decide (value.toList.length = 10) && value.toList.zipIdx.all fun p =>
    if p.2 = 4 ∨ p.2 = 7 then p.1 == '-' else p.1.isDigit

/-- The step that takes one text, into one field. -/
def textInto (field : String) (min max : Nat) (what : String) (input : WizardInput) : StepResult :=
  match acceptText input min max what with
  | .ok value => .ok [(field, some (.string value))]
  | .error error => .refused error

/-- The step that takes one integer, into one field, and clears others. -/
def integerInto (field : String) (cleared : List String) (min max : Int) (what : String)
    (input : WizardInput) : StepResult :=
  match acceptInteger input min max what with
  | .ok value => .ok ((field, some (.number value)) :: cleared.map fun key => (key, none))
  | .error error => .refused error

/-- The step that takes the id of a button, and clears what belonged to the one before. -/
def idInto (field : String) (cleared : List String) (error : String → String)
    (input : WizardInput) : StepResult :=
  if isUuid input.value then
    .ok ((field, some (.string input.value)) :: cleared.map fun key => (key, none))
  else .refused (error (quoted input.value))

/-- The step that takes one of a fixed list of values, and clears others. -/
def oneOf (values : List String) (field : String) (cleared : List String)
    (error : String → String) (input : WizardInput) : StepResult :=
  if input.value ∈ values then
    .ok ((field, some (.string input.value)) :: cleared.map fun key => (key, none))
  else .refused (error (quoted input.value))

/-- A short text with its own refusals, as the forms without `acceptText` check it. -/
def plainText (field : String) (min max : Nat) (notText tooShort tooLong : String)
    (input : WizardInput) : StepResult :=
  if input.kind ≠ .text then .refused notText
  else
    let value := trim input.value
    if utf16Length value < min then .refused tooShort
    else if max < utf16Length value then .refused tooLong
    else .ok [(field, some (.string value))]

/-! ## CREATE_EVENT -/

def UNLIMITED_CAPACITY : Int := 1000

def UNLIMITED_CHOICE : String := "u"

def NAMED_DURATIONS : List (List String × Int) :=
  [(["نیم روز", "نیم‌روز", "half day"], 4),
   (["یک روز", "تمام روز", "تمام‌روز", "کل روز", "all day", "one day", "full day"], 12),
   (["یک ساعت", "one hour"], 1),
   (["دو ساعت"], 2),
   (["سه ساعت"], 3)]

def includes (s word : String) : Bool := decide (word.toList <:+: s.toList)

/-- A duration in hours, from a button, a number or words. -/
def durationHours (input : WizardInput) : Except String Int :=
  let raw := toAsciiDigits (trim input.value).toLower
  match NAMED_DURATIONS.find? fun entry => entry.1.any (includes raw) with
  | some entry => .ok entry.2
  | none =>
    let digits := ((raw.toList.dropWhile fun c => !c.isDigit).takeWhile Char.isDigit).take 3
    if digits = [] then
      .error (s!"توی {quoted input.value} عددی پیدا نکردم. " ++
        "مدت رو به ساعت بنویس، مثلاً «۳ ساعت» یا «کل روز».")
    else
      let hours : Int := digitsValue digits
      let total := if includes raw "روز" || includes raw "day" then hours * 12 else hours
      if total < 1 ∨ 24 < total then
        .error ("مدت باید بین ۱ تا ۲۴ ساعت باشه؛ " ++
          s!"{quoted input.value} یعنی {toPersianDigits total} ساعت.")
      else .ok total

/-- «تمام» and the rest: the optional half of the form. -/
def wantsDetails (form : Form) : Bool := form.isTrue "wantsDetails"

def acceptDistrict (input : WizardInput) : StepResult :=
  if input.kind = .text then
    match acceptText input 2 60 "محله" with
    | .ok value => .ok [("districtLabel", some (.string value)), ("districtId", none)]
    | .error error => .refused error
  else
    idInto "districtId" ["districtLabel"]
      (fun q => s!"محله رو بنویس یا یکی از دکمه‌ها رو بزن؛ {q} محله نبود.") input

def acceptCapacity (input : WizardInput) : StepResult :=
  if trim input.value = UNLIMITED_CHOICE then
    .ok [("capacity", some (.number UNLIMITED_CAPACITY))]
  else integerInto "capacity" [] 1 UNLIMITED_CAPACITY "ظرفیت" input

def acceptDuration (input : WizardInput) : StepResult :=
  match durationHours input with
  | .ok hours => .ok [("durationHours", some (.number hours))]
  | .error error => .refused error

def acceptMaxAge (input : WizardInput) (form : Form) : StepResult :=
  match acceptInteger input 18 120 "سن" with
  | .error error => .refused error
  | .ok value =>
    match form.number "minAge" with
    | some minAge =>
      if value < minAge then
        .refused ("بیشترین سن نمی‌تونه از کمترین سن کمتر باشه؛ " ++
          s!"کمترین سن رو {toPersianDigits minAge} گذاشتی و {toPersianDigits value} فرستادی.")
      else .ok [("maxAge", some (.number value))]
    | none => .ok [("maxAge", some (.number value))]

def acceptLink (input : WizardInput) : StepResult :=
  let value := trim input.value
  if "https://".toList.isPrefixOf value.toList && decide (8 < value.toList.length) &&
      !value.toList.any isTrimmed then
    .ok [("externalLink", some (.string value))]
  else .refused ("لینک باید با https:// شروع بشه و فاصله نداشته باشه؛ " ++
    s!"{quoted value} این شکلی نیست. اگه لینکی نداری، «فعلاً نه» رو بزن.")

/-- The questions the server requires, then the ones behind «افزودن جزئیات بیشتر». -/
def createEventSteps : List WizardStep :=
  [{ key := "title", ui := .text,
     accept := fun input _ => textInto "title" 3 80 "اسم برنامه" input },
   { key := "desc", ui := .text,
     accept := fun input _ => textInto "description" 10 2000 "توضیح" input },
   { key := "cat", ui := .choice,
     accept := fun input _ => idInto "categoryId" []
       (fun q => s!"دسته رو از دکمه‌های زیر انتخاب کن؛ {q} جزوشون نیست.") input },
   { key := "prov", ui := .choice,
     accept := fun input _ => idInto "provinceId" ["cityId", "districtId", "districtLabel"]
       (fun q => s!"استان رو از دکمه‌های زیر انتخاب کن؛ {q} جزوشون نیست.") input },
   { key := "city", ui := .choice,
     accept := fun input _ => idInto "cityId" ["districtId", "districtLabel"]
       (fun q => s!"شهر رو از دکمه‌های زیر انتخاب کن؛ {q} جزوشون نیست. " ++
         "اگه شهری که می‌خوای توی فهرست نیست، با «برگشت» یه استان دیگه رو امتحان کن.") input },
   { key := "dist", ui := .choice, optional := true,
     accept := fun input _ => acceptDistrict input },
   { key := "day", ui := .calendar,
     accept := fun input _ =>
       if isIsoDay input.value then .ok [("day", some (.string input.value))]
       else .refused ("روز رو از تقویم زیر انتخاب کن. تاریخ رو دستی ننویس؛ " ++
         "اگه ماه دیگه‌ای می‌خوای، «ماه بعد» رو بزن.") },
   { key := "hour", ui := .time,
     accept := fun input _ => integerInto "hour" ["startMinute"] 0 23 "ساعت" input },
   { key := "dur", ui := .choice, accept := fun input _ => acceptDuration input },
   { key := "cap", ui := .choice, accept := fun input _ => acceptCapacity input },
   { key := "cost", ui := .choice,
     accept := fun input _ => oneOf ["FREE", "APPROX", "FIXED", "SPLIT"] "costType" ["costAmount"]
       (fun q => s!"نوع هزینه رو از دکمه‌های زیر انتخاب کن؛ {q} جزوشون نیست.") input },
   { key := "amount", ui := .text,
     applies := fun form => decide (form.string "costType" = some "FIXED") ||
       decide (form.string "costType" = some "APPROX"),
     accept := fun input _ => integerInto "costAmount" [] 0 100000000 "مبلغ" input },
   { key := "gender", ui := .choice, optional := true, applies := wantsDetails,
     accept := fun input _ => oneOf ["MALE_ONLY", "FEMALE_ONLY"] "genderPreference" []
       (fun q => "یکی از دکمه‌های زیر رو بزن، یا اگه فرقی نداره «فعلاً نه»؛ " ++
         s!"{q} جزو گزینه‌های این مرحله نیست.") input },
   { key := "minage", ui := .text, optional := true, applies := wantsDetails,
     accept := fun input _ => integerInto "minAge" [] 18 120 "سن" input },
   { key := "maxage", ui := .text, optional := true, applies := wantsDetails,
     accept := acceptMaxAge },
   { key := "rules", ui := .text, optional := true, applies := wantsDetails,
     accept := fun input _ => textInto "rules" 1 1000 "قواعد" input },
   { key := "link", ui := .text, optional := true, applies := wantsDetails,
     accept := fun input _ => acceptLink input }]

def createEventWizard : WizardDefinition := ⟨createEventSteps, Form.empty⟩

/-! ## EDIT_PROFILE -/

/-- The letters of `DISPLAY_NAME_PATTERN`. -/
def isNameChar (c : Char) : Bool :=
  ('A' ≤ c && c ≤ 'Z') || ('a' ≤ c && c ≤ 'z') || c == ' ' || c.toNat == 0x200c ||
    decide (0x600 ≤ c.toNat ∧ c.toNat ≤ 0x65f) || decide (0x66a ≤ c.toNat ∧ c.toNat ≤ 0x6ef) ||
    decide (0x6fa ≤ c.toNat ∧ c.toNat ≤ 0x6ff)

def JALALI_EPOCH_OFFSET : Int := 621
def MIN_JALALI_BIRTH_YEAR : Int := 1280
def MAX_JALALI_BIRTH_YEAR : Int := 1420

/-- A birth year, answered in Jalali and stored as Gregorian. -/
def birthYearOf (input : WizardInput) : Except String Int :=
  let raw := (toAsciiDigits (trim input.value)).toList
  if !(raw.all Char.isDigit && decide (raw.length = 4)) then
    .error ("سال تولدت رو به شمسی و با چهار رقم بنویس، مثلاً ۱۳۷۰. " ++
      s!"{quoted input.value} چهار رقم نبود.")
  else
    let year : Int := digitsValue raw
    if 1900 ≤ year ∧ year ≤ 2200 then
      .error ("سال تولد رو به شمسی بنویس. " ++
        s!"{toString year} میلادی میشه {toPersianDigits (year - JALALI_EPOCH_OFFSET)} شمسی.")
    else if year < MIN_JALALI_BIRTH_YEAR ∨ MAX_JALALI_BIRTH_YEAR < year then
      .error (s!"سال تولد باید بین {toPersianDigits MIN_JALALI_BIRTH_YEAR} و " ++
        s!"{toPersianDigits MAX_JALALI_BIRTH_YEAR} شمسی باشه؛ {toPersianDigits year} فرستادی.")
    else .ok (year + JALALI_EPOCH_OFFSET)

/-- Whether a step runs, when the form may be about one field only. -/
def scopedTo (field : String) (form : Form) : Bool :=
  if form.isTrue "onlyInterests" then field == "tags"
  else (form "field").isNone || decide (form "field" = some (.string field))

def acceptName (input : WizardInput) : StepResult :=
  match acceptText input 2 40 "اسم نمایشی" with
  | .error error => .refused error
  | .ok value =>
    if !value.isEmpty && value.toList.all isNameChar then
      .ok [("displayName", some (.string value))]
    else .refused ("اسم نمایشی فقط می‌تونه حروف فارسی یا انگلیسی و فاصله داشته باشه؛ " ++
      s!"بدون عدد، ایموجی یا علامت. {quoted value} حرف غیرمجاز داره.")

def acceptBirth (input : WizardInput) : StepResult :=
  match birthYearOf input with
  | .ok year => .ok [("birthYear", some (.number year))]
  | .error error => .refused error

def acceptInterest (input : WizardInput) (form : Form) : StepResult :=
  if input.kind = .text then
    .refused "علاقه‌مندی‌ها رو از دکمه‌های زیر انتخاب کن. انتخابت که تموم شد، «تموم» رو بزن."
  else if isUuid input.value then
    let current := form.strings "interestIds"
    let next := if input.value ∈ current then current.filter (· ≠ input.value)
      else current ++ [input.value]
    .ok [("interestIds", some (.strings next))]
  else .refused (s!"علاقه‌مندی‌ها رو از دکمه‌های زیر انتخاب کن؛ {quoted input.value} " ++
    "جزوشون نیست. وقتی تموم شد «تموم» رو بزن.")

def editProfileSteps : List WizardStep :=
  [{ key := "name", ui := .text, applies := scopedTo "name",
     accept := fun input _ => acceptName input },
   { key := "gender", ui := .choice,
     applies := fun form => !form.isTrue "onlyInterests" && (form "field").isNone,
     accept := fun input _ => oneOf ["MALE", "FEMALE"] "gender" []
       (fun q => s!"یکی از دکمه‌های زیر رو بزن؛ {q} جزو گزینه‌های این مرحله نیست.") input },
   { key := "birth", ui := .text, applies := scopedTo "birth",
     accept := fun input _ => acceptBirth input },
   { key := "prov", ui := .choice, applies := scopedTo "loc",
     accept := fun input _ => idInto "provinceId" ["cityId", "districtId"]
       (fun q => s!"استان رو از دکمه‌های زیر انتخاب کن؛ {q} جزوشون نیست.") input },
   { key := "city", ui := .choice, applies := scopedTo "loc",
     accept := fun input _ => idInto "cityId" ["districtId"]
       (fun q => s!"شهر رو از دکمه‌های زیر انتخاب کن؛ {q} جزوشون نیست. " ++
         "اگه شهرت توی فهرست نیست، با «برگشت» یه استان دیگه رو امتحان کن.") input },
   { key := "bio", ui := .text, optional := true, applies := scopedTo "bio",
     accept := fun input _ => textInto "bio" 1 500 "معرفی" input },
   { key := "tags", ui := .multi, applies := scopedTo "tags",
     selectedOf := fun form => form.strings "interestIds", accept := acceptInterest }]

def editProfileWizard : WizardDefinition := ⟨editProfileSteps, Form.empty⟩

/-! ## The short forms -/

def MAX_REVIEW_TAGS : Nat := 5

def REVIEW_TAGS : List String :=
  ["PUNCTUAL", "FRIENDLY", "GOOD_CONVERSATION", "WELL_ORGANISED", "AS_DESCRIBED",
   "WOULD_MEET_AGAIN", "LATE", "UNCOMMUNICATIVE"]

def acceptReviewTag (input : WizardInput) (form : Form) : StepResult :=
  if input.kind = .text then
    .refused ("برای انتخاب برچسب‌ها از دکمه‌های زیر استفاده کن. " ++
      "اگه می‌خوای توضیح بنویسی، اول «تموم» رو بزن.")
  else if input.value ∈ REVIEW_TAGS then
    let current := form.strings "tags"
    if input.value ∈ current then
      .ok [("tags", some (.strings (current.filter (· ≠ input.value))))]
    else if MAX_REVIEW_TAGS ≤ current.length then
      .refused (s!"حداکثر {toPersianDigits MAX_REVIEW_TAGS} تا می‌تونی انتخاب کنی. " ++
        "برای انتخاب این یکی، اول یکی از تیک‌خورده‌ها رو بردار.")
    else .ok [("tags", some (.strings (current ++ [input.value])))]
  else .refused "یکی از گزینه‌ها رو انتخاب کن."

def writeReviewWizard : WizardDefinition where
  steps :=
    [{ key := "tag", ui := .multi, optional := true,
       selectedOf := fun form => form.strings "tags", accept := acceptReviewTag },
     { key := "comment", ui := .text, optional := true,
       accept := fun input _ => plainText "comment" 1 500 "توضیحت رو بنویس و بفرست."
         "توضیح خالیه." "توضیح باید حداکثر ۵۰۰ حرف باشه." input }]
  empty := Form.empty

def REPORT_REASONS : List String :=
  ["SPAM", "HARASSMENT", "INAPPROPRIATE", "SCAM", "IMPERSONATION", "SAFETY", "OTHER"]

def fileReportWizard : WizardDefinition where
  steps :=
    [{ key := "why", ui := .choice,
       accept := fun input _ => oneOf REPORT_REASONS "reason" []
         (fun _ => "یکی از گزینه‌ها رو انتخاب کن.") input },
     { key := "note", ui := .text, optional := true,
       accept := fun input _ => plainText "description" 1 1000 "توضیحت رو بنویس و بفرست."
         "توضیح خالیه." "توضیح باید حداکثر ۱۰۰۰ حرف باشه." input }]
  empty := Form.empty

def acceptPoliciesWizard : WizardDefinition where
  steps :=
    [{ key := "review", ui := .confirm,
       accept := fun input _ =>
         if input.action = some "agree" then .ok [("accepted", some (.flag true))]
         else .refused "برای ادامه، دکمهٔ «می‌پذیرم» رو بزن." }]
  empty := Form.empty

/-- Whether the automatic flag was wrong is asked only where there was one. -/
def asksFalsePositive (form : Form) : Bool :=
  decide (form.string "decision" = some "APPROVED") &&
    decide (form.string "trigger" = some "AUTO_BLACKLIST")

def adminCaseWizard : WizardDefinition where
  steps :=
    [{ key := "verdict", ui := .choice,
       accept := fun input _ => oneOf ["APPROVED", "REJECTED"] "decision" ["falsePositive"]
         (fun _ => "یکی از دو گزینه را انتخاب کنید.") input },
     { key := "falsepos", ui := .choice, applies := asksFalsePositive,
       accept := fun input _ =>
         if input.value = "yes" ∨ input.value = "no" then
           .ok [("falsePositive", some (.flag (input.value == "yes")))]
         else .refused "یکی از دو گزینه را انتخاب کنید." },
     { key := "note", ui := .text,
       accept := fun input _ => plainText "note" 3 500 "توضیح را بنویسید و بفرستید."
         "توضیح باید دست‌کم ۳ نویسه باشد." "توضیح باید حداکثر ۵۰۰ نویسه باشد." input }]
  empty := Form.empty

def redeemCodeWizard : WizardDefinition where
  steps :=
    [{ key := "code", ui := .text,
       accept := fun input _ => plainText "code" 4 32 "کد رو بنویس و بفرست."
         "این کد کوتاه‌تر از اونه که درست باشه. دوباره نگاه کن."
         "فقط خودِ کد رو بفرست، بدون توضیح اضافه." input }]
  empty := Form.empty

def MAX_SCREENSHOTS : Nat := 10

def acceptScreenshot (input : WizardInput) (form : Form) : StepResult :=
  if input.kind ≠ .photo then .refused "یه عکس بفرست، یا برای ثبت گزارش «فعلاً نه» رو بزن."
  else
    let existing := form.strings "screenshotFileIds"
    if MAX_SCREENSHOTS ≤ existing.length then .refused "بیشتر از ۱۰ عکس نمیشه فرستاد."
    else if input.value ∈ existing then .ok [("screenshotFileIds", some (.strings existing))]
    else .ok [("screenshotFileIds", some (.strings (existing ++ [input.value])))]

def bugReportWizard : WizardDefinition where
  steps :=
    [{ key := "what", ui := .text,
       accept := fun input _ => plainText "description" 10 2000
         "اول مشکل رو بنویس. توی مرحلهٔ بعد می‌تونی عکس بفرستی."
         "توضیح باید دست‌کم ۱۰ حرف باشه." "توضیح نباید بیشتر از ۲۰۰۰ حرف باشه." input },
     { key := "shots", ui := .text, optional := true, accept := acceptScreenshot }]
  empty := Form.empty.merge [("screenshotFileIds", some (.strings []))]

/-- A text step that refuses a photo with a sentence of its own. -/
def textNotPhoto (photo : String) (rest : WizardInput → StepResult) (input : WizardInput) :
    StepResult :=
  if input.kind = .photo then .refused photo else rest input

def directMessageWizard : WizardDefinition where
  steps :=
    [{ key := "body", ui := .text,
       accept := fun input _ => textNotPhoto "فعلاً فقط متن فرستاده میشه. پیامت رو بنویس."
         (plainText "body" 2 1000 "پیامت رو بنویس و بفرست." "پیام خیلی کوتاهه. یه کم بیشتر بنویس."
           "پیام خیلی بلنده. کوتاه‌ترش کن و دوباره بفرست.") input }]
  empty := Form.empty

def noShowClaimWizard : WizardDefinition where
  steps :=
    [{ key := "statement", ui := .text,
       accept := fun input _ => textNotPhoto "فعلاً فقط متن قبول میشه. ماجرا رو بنویس."
         (plainText "statement" 10 500 "ماجرا رو بنویس و بفرست."
           "یه کم بیشتر بنویس تا داور بتونه قضاوت کنه."
           "نوشته‌ت خیلی بلنده. توی ۵۰۰ حرف خلاصه‌ش کن.") input }]
  empty := Form.empty

/-- Every wizard the bot knows, by the kind that the row stores. -/
def WIZARDS : Wizards
  | .CREATE_EVENT => some createEventWizard
  | .EDIT_PROFILE => some editProfileWizard
  | .WRITE_REVIEW => some writeReviewWizard
  | .FILE_REPORT => some fileReportWizard
  | .ACCEPT_POLICIES => some acceptPoliciesWizard
  | .ADMIN_CASE => some adminCaseWizard
  | .REDEEM_CODE => some redeemCodeWizard
  | .BUG_REPORT => some bugReportWizard
  | .DIRECT_MESSAGE => some directMessageWizard
  | .NO_SHOW_CLAIM => some noShowClaimWizard
  | .COMPLETE_PROFILE | .EDIT_EVENT => none

end Conversation

end Paayatam
