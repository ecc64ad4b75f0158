import ObsidianMcp.Library.Patterns
import ObsidianMcp.Model.LinkResolver
import ObsidianMcp.Model.Path
import ObsidianMcp.Model.Periodic

/-! # Periodic notes -/

namespace ObsidianMcp

open Text

/-! ## Dates -/

def isLeapYear (year : ℤ) : Bool :=
  year % 4 = 0 && (year % 100 ≠ 0 || year % 400 = 0)

def daysInMonth (year : ℤ) (month : ℕ) : ℕ :=
  if month = 2 then (if isLeapYear year then 29 else 28)
  else if month = 4 ∨ month = 6 ∨ month = 9 ∨ month = 11 then 30
  else 31

/-- The dates of the calendar that can be represented. -/
def isYmd (year : ℤ) (month day : ℕ) : Bool :=
  -262143 ≤ year && year ≤ 262142 && 1 ≤ month && month ≤ 12 && 1 ≤ day &&
    day ≤ daysInMonth year month

structure NaiveDate where
  year : ℤ
  month : ℕ
  day : ℕ
  valid : isYmd year month day = true
  deriving DecidableEq

def NaiveDate.fromYmdOpt (year : ℤ) (month day : ℕ) : Option NaiveDate :=
  if h : isYmd year month day = true then some ⟨year, month, day, h⟩ else none

def NaiveDate.quarter (date : NaiveDate) : ℕ :=
  (date.month - 1) / 3 + 1

/-- The calendar order. -/
def NaiveDate.le (a b : NaiveDate) : Bool :=
  a.year < b.year || (a.year = b.year && (a.month < b.month ||
    (a.month = b.month && a.day ≤ b.day)))

/-- The digits of a number, zero-padded. -/
def padded (width n : ℕ) : Text :=
  List.replicate (width - (displayNat n).length) '0' ++ displayNat n

/-- The year of `%Y`: four digits, with a sign for a year of another length. -/
def yearText (year : ℤ) : Text :=
  if 0 ≤ year ∧ year ≤ 9999 then padded 4 year.toNat
  else (if year < 0 then '-' else '+') :: padded 4 year.natAbs

/-- Formatting and parsing of dates. A format that cannot be written out is an error. -/
structure Chrono where
  format : NaiveDate → Text → Option Text
  parseFromStr : Text → Text → Option NaiveDate
  format_nil : ∀ date, format date [] = some []
  format_char : ∀ date c fmt, c ≠ '%' → format date (c :: fmt) = (format date fmt).map (c :: ·)
  format_percent : ∀ date fmt,
    format date ('%' :: '%' :: fmt) = (format date fmt).map ('%' :: ·)
  format_year : ∀ date fmt,
    format date ('%' :: 'Y' :: fmt) = (format date fmt).map (yearText date.year ++ ·)
  format_month : ∀ date fmt,
    format date ('%' :: 'm' :: fmt) = (format date fmt).map (padded 2 date.month ++ ·)
  format_day : ∀ date fmt,
    format date ('%' :: 'd' :: fmt) = (format date fmt).map (padded 2 date.day ++ ·)

/-- Years, months and days written out, and no other part of a date. -/
def writeDate (date : NaiveDate) : Text → Option Text
  | [] => some []
  | '%' :: '%' :: fmt => (writeDate date fmt).map ('%' :: ·)
  | '%' :: 'Y' :: fmt => (writeDate date fmt).map (yearText date.year ++ ·)
  | '%' :: 'm' :: fmt => (writeDate date fmt).map (padded 2 date.month ++ ·)
  | '%' :: 'd' :: fmt => (writeDate date fmt).map (padded 2 date.day ++ ·)
  | c :: fmt => if c = '%' then none else (writeDate date fmt).map (c :: ·)

/-- Dates of years, months and days. -/
def Chrono.numeric : Chrono where
  format := writeDate
  parseFromStr _ _ := none
  format_nil _ := rfl
  format_char date c fmt h := by
    rw [writeDate, if_neg h]
    all_goals simp_all
  format_percent _ _ := rfl
  format_year _ _ := rfl
  format_month _ _ := rfl
  format_day _ _ := rfl

/-- A local time of day. -/
structure TimeOfDay where
  hour : ℕ
  minute : ℕ
  hour_lt : hour < 24
  minute_lt : minute < 60

/-- The time as `%H:%M`. -/
def TimeOfDay.text (time : TimeOfDay) : Text :=
  padded 2 time.hour ++ ':' :: padded 2 time.minute

/-! ## Formatting -/

section Formatting

variable (chrono : Chrono)

/-- Format a date using a Moment.js format string. -/
def formatDate (date : NaiveDate) (momentFormat : Text) : Except VaultError Text :=
  match chrono.format date (momentjsToChrono momentFormat) with
  | none => .error (.invalidDateFormat momentFormat
      "an error occurred when formatting an argument".toList)
  | some formatted =>
      if quarterPlaceholder <:+: formatted then
        .ok (replace quarterPlaceholder (displayNat date.quarter) formatted)
      else .ok formatted

/-! ## Templates -/

/-- The format of a date placeholder that starts here. -/
def dateFormatAt (t : Text) : Option Text :=
  (stripPrefix "\x7b\x7bdate:".toList t).bind fun rest =>
    let format := rest.takeWhile fun c => c ≠ '\x7d'
    if format ≠ [] ∧ "\x7d\x7d".toList.isPrefixOf (rest.drop format.length) then some format
    else none

/-- The loop over the date placeholders with a format, when `skip` characters belong to the last. -/
def expandDates (date : NaiveDate) : ℕ → Text → Except VaultError Text
  | _, [] => .ok []
  | skip + 1, _ :: t => expandDates date skip t
  | 0, c :: t =>
      match dateFormatAt (c :: t) with
      | some format => do
          let formatted ← formatDate chrono date format
          let rest ← expandDates date (format.length + 8) t
          return formatted ++ rest
      | none => (expandDates date 0 t).map (c :: ·)

def expandTemplateString (content : Text) (date : NaiveDate) (title : Text) (now : TimeOfDay) :
    Except VaultError Text := do
  let result ← expandDates chrono date 0 content
  let result := replace "\x7b\x7btitle\x7d\x7d".toList title result
  let dateText ← formatDate chrono date "YYYY-MM-DD".toList
  let result := replace "\x7b\x7bdate\x7d\x7d".toList dateText result
  return replace "\x7b\x7btime\x7d\x7d".toList now.text result

end Formatting

/-! ## Parsing -/

section Parsing

variable (regex : RegexLibrary) (chrono : Chrono)

inductive CaptureKind where
  | year4
  | year2
  | quarter
  deriving DecidableEq

/-- The format with a marker for every token that is read back. -/
def withMarkers (chronoFmt : Text) : Text :=
  replace "%y".toList "<<Y2>>".toList
    (replace "%Y".toList "<<Y4>>".toList
      (replace quarterPlaceholder "<<Q>>".toList chronoFmt))

/-- The kinds of the markers, by their first positions. -/
def captureInfo (withMarkers : Text) : List (ℕ × CaptureKind) :=
  ([("<<Y4>>".toList, CaptureKind.year4), ("<<Y2>>".toList, .year2),
    ("<<Q>>".toList, .quarter)].filterMap fun entry =>
      (findText entry.1 withMarkers).map (·, entry.2)).mergeSort fun a b => a.1 ≤ b.1

/-- The number that digits spell. -/
def parseDigits (t : Text) : Option ℕ :=
  if t ≠ [] ∧ t.all Char.isDigit then
    some (t.foldl (fun n c => 10 * n + (c.toNat - '0'.toNat)) 0)
  else none

/-- One step of the loop over the kinds: the year and the quarter read so far. -/
def readCapture (state : Option ℕ × Option ℕ) (kind : CaptureKind) (val : Text) :
    Option ℕ × Option ℕ :=
  match kind with
  | .year4 => (parseDigits val, state.2)
  | .year2 => ((parseDigits val).map (2000 + ·), state.2)
  | .quarter => (state.1, parseDigits val)

def readCaptures (caps : List Text) (info : List (ℕ × CaptureKind)) :
    Option (Option ℕ × Option ℕ) :=
  info.zipIdx.foldlM (fun state entry => (caps[entry.2]?).map (readCapture state entry.1.2))
    (none, none)

/-- Parse dates from filenames that contain the quarter token. -/
def tryParseQuarterDate (stem chronoFmt : Text) : Option NaiveDate := do
  let withMarkers := withMarkers chronoFmt
  let escaped := replace "<<Y2>>".toList (Atom.digits 2).source
    (replace "<<Y4>>".toList (Atom.digits 4).source
      (replace "<<Q>>".toList (Atom.digits 1).source (escape withMarkers)))
  let re ← regex.new ('^' :: escaped ++ ['$'])
  let caps ← re stem
  let (year, quarter) ← readCaptures caps (captureInfo withMarkers)
  let y ← year
  let q ← quarter.filter fun q => 1 ≤ q ∧ q ≤ 4
  NaiveDate.fromYmdOpt y ((q - 1) * 3 + 1) 1

/-- Try to parse a filename stem into a date. -/
def tryParseDate (stem chronoFmt : Text) (hasQuarter : Bool) : Option NaiveDate :=
  if hasQuarter then tryParseQuarterDate regex stem chronoFmt
  else
    -- a week without a day of the week begins on Monday
    let week := if "%G".toList <:+: chronoFmt ∨ "%V".toList <:+: chronoFmt then
      chrono.parseFromStr (stem ++ "-1".toList) (chronoFmt ++ "-%u".toList) else none
    (((chrono.parseFromStr stem chronoFmt).or week).or
      (chrono.parseFromStr (stem ++ "-01".toList) (chronoFmt ++ "-%d".toList))).or
        (chrono.parseFromStr (stem ++ "-01-01".toList) (chronoFmt ++ "-%m-%d".toList))

end Parsing

/-! ## Paths -/

structure PeriodicNoteConfig where
  format : Text
  folder : Option Text

/-- Join two vault keys. -/
def logicalJoin (parent child : OsString) : Except VaultError OsString := do
  let text : OsString → Except VaultError VaultPath := fun path =>
    match path.toStr with
    | none => .error (.invalidPath "vault paths must be UTF-8".toList)
    | some text => VaultPath.parse text
  let parent ← text parent
  let child ← text child
  return utf8Bytes (
    if parent.asStr.isEmpty then child.asStr
    else if child.asStr.isEmpty then parent.asStr
    else parent.asStr ++ '/' :: child.asStr)

/-- Derive the file path for a periodic note given a date. -/
def periodicNotePath (chrono : Chrono) (config : PeriodicNoteConfig) (date : NaiveDate) :
    Except VaultError OsString := do
  let name ← formatDate chrono date config.format
  logicalJoin (utf8Bytes (config.folder.getD [])) (utf8Bytes (name ++ ".md".toList))

section Recent

variable (regex : RegexLibrary) (chrono : Chrono) (u : PathText)

/-- The path of a note below the folder of the periodic notes. -/
def relativeToFolder (folder : VaultPath) (path : OsString) (text : Text) :
    Except VaultError Text :=
  if folder.asStr.isEmpty then .ok text
  else
    match (stripPrefix folder.asStr text).bind (stripPrefix ['/']) with
    | some relative => .ok relative
    | none => .error (.outsideVault (u.toStringLossy path))

/-- One step of the loop over the paths. -/
def datePath (folder : VaultPath) (format : Text) (quarter : Bool)
    (dated : List (NaiveDate × OsString)) (path : OsString) :
    Except VaultError (List (NaiveDate × OsString)) :=
  match path.toStr with
  | none => .error (.invalidPath "vault paths must be UTF-8".toList)
  | some text => do
      let relative ← relativeToFolder u folder path text
      match stripSuffix ".md".toList relative with
      | none => return dated
      | some stem =>
          match tryParseDate regex chrono stem format quarter with
          | none => return dated
          | some date => return dated ++ [(date, path)]

def filterRecentPaths (config : PeriodicNoteConfig) (paths : List OsString) (limit : ℕ) :
    Except VaultError (List OsString) := do
  let folder ← VaultPath.parse (config.folder.getD [])
  let format := momentjsToChrono config.format
  let quarter : Bool := quarterPlaceholder <:+: format
  let dated ← paths.foldlM (datePath regex chrono u folder format quarter) []
  return ((dated.mergeSort fun a b => b.1.le a.1).take limit).map Prod.snd

end Recent

end ObsidianMcp
