/-
# The tar header

A tar entry starts with a header of 512 bytes, whose fields are C strings and octal numbers at
fixed offsets (`enum TarHeader`).  `tar_c_file` builds it in its buffer `b`, which is memory here:
a function from the offset, so that a field which is too long runs into the next one as in C.
`restore_from_tar` reads it field by field.

The conversions of times and modes between iomanX and the header are here too.  iomanX counts
time in Japan, nine hours ahead.

* `convertPosixTime_convertIoxStatTime`: a time of the years 1970 to 2105 comes back;
* `convertPosixMode_convertMode`: the type and the permission bits of a mode come back.
-/
import Mathlib.Data.Nat.Bitwise
import Mathlib.Tactic.NormNum
import PfsShell.Lib.Calendar
import PfsShell.Lib.Octal
import PfsShell.Lib.Tiling
import PfsShell.Pfs2tar.Iomanx

namespace PfsShell.Pfs2tar

open PfsShell.Lib

/-! ## 1. Times -/

/-- The broken-down time of a timestamp. -/
def Stamp.tm (t : Stamp) : Tm where
  sec := t.sec.toNat
  min := t.min.toNat
  hour := t.hour.toNat
  mday := t.day.toNat
  mon := t.month.toNat - 1
  year := ((t.yearLow.toNat ||| t.yearHigh.toNat <<< 8 : ℕ) : ℤ) - 1900

/-- `convert_iox_stat_time_to_posix`. -/
def convertIoxStatTimeToPosix (iomanxTime : Stamp) : ℤ :=
  timegm iomanxTime.tm + 9 * 60 * 60

/-- The conversion to `unsigned char`. -/
def uchar (z : ℤ) : UInt8 := UInt8.ofNat (z % 256).toNat

/-- `convert_posix_time_to_iox_time`. -/
def convertPosixTimeToIoxTime (posixTime : ℤ) : Stamp :=
  let tm := gmtime (posixTime - 9 * 60 * 60)
  { unused := 0
    sec := uchar tm.sec
    min := uchar tm.min
    hour := uchar tm.hour
    day := uchar tm.mday
    month := uchar (tm.mon + 1)
    yearLow := uchar (tm.year + 1900)
    yearHigh := uchar ((tm.year + 1900) >>> (8 : ℕ)) }

/-- A date and time of the calendar, in the years 1970 to 2105. -/
structure Stamp.Dated (t : Stamp) : Prop where
  valid : t.tm.Valid
  year : 70 ≤ t.tm.year ∧ t.tm.year ≤ 205

@[simp] theorem uchar_natCast (b : UInt8) : uchar (b.toNat : ℤ) = b := by
  have hlt : b.toNat < 256 := b.toNat_lt
  have hval : ((b.toNat : ℤ) % 256).toNat = b.toNat := by omega
  rw [uchar, hval, UInt8.ofNat_toNat]

theorem Stamp.year_eq (t : Stamp) :
    t.tm.year + 1900 = (t.yearLow.toNat + 256 * t.yearHigh.toNat : ℕ) := by
  have hlow : t.yearLow.toNat < 2 ^ 8 := t.yearLow.toNat_lt
  have hor := Nat.shiftLeft_add_eq_or_of_lt hlow t.yearHigh.toNat
  rw [Nat.shiftLeft_eq] at hor
  simp only [Stamp.tm]
  rw [Nat.or_comm, Nat.shiftLeft_eq, ← hor]
  omega

/-- The timestamp of a broken-down time. -/
def Stamp.ofTm (tm : Tm) : Stamp where
  sec := uchar tm.sec
  min := uchar tm.min
  hour := uchar tm.hour
  day := uchar tm.mday
  month := uchar (tm.mon + 1)
  yearLow := uchar (tm.year + 1900)
  yearHigh := uchar ((tm.year + 1900) >>> (8 : ℕ))

theorem convertPosixTime_eq (time : ℤ) :
    convertPosixTimeToIoxTime time = .ofTm (gmtime (time - 9 * 60 * 60)) := rfl

/-- The broken-down time of a timestamp gives it back, the unused byte as 0. -/
theorem Stamp.ofTm_tm (t : Stamp) : Stamp.ofTm t.tm = { t with unused := 0 } := by
  have hlow : uchar (t.tm.year + 1900) = t.yearLow := by
    have hval : (((t.yearLow.toNat + 256 * t.yearHigh.toNat : ℕ) : ℤ) % 256).toNat =
        t.yearLow.toNat := by
      have := t.yearLow.toNat_lt
      omega
    rw [Stamp.year_eq, uchar, hval, UInt8.ofNat_toNat]
  have hhigh : uchar ((t.tm.year + 1900) >>> (8 : ℕ)) = t.yearHigh := by
    have hval : (((t.yearLow.toNat + 256 * t.yearHigh.toNat : ℕ) : ℤ) / 256 % 256).toNat =
        t.yearHigh.toNat := by
      have := t.yearLow.toNat_lt
      have := t.yearHigh.toNat_lt
      omega
    rw [Stamp.year_eq, Int.shiftRight_eq_div_pow, uchar]
    norm_num only
    rw [hval, UInt8.ofNat_toNat]
  have hmonth : uchar (t.tm.mon + 1) = t.month := by simp [Stamp.tm]
  rw [Stamp.ofTm, hlow, hhigh, hmonth]
  simp [Stamp.tm]

/-- The permission bits, of iomanX and of POSIX, in the order both conversions test them. -/
def permissions : List (ℕ × ℕ) :=
  [(0x0100, 0o0400), (0x0080, 0o0200), (0x0040, 0o0100),
   (0x0020, 0o0040), (0x0010, 0o0020), (0x0008, 0o0010),
   (0x0004, 0o0004), (0x0002, 0o0002), (0x0001, 0o0001),
   (0x0800, 0o4000), (0x0400, 0o2000), (0x0200, 0o1000)]

/-- One `if (mode & from) res |= to;` after the other. -/
def copyBits (table : List (ℕ × ℕ)) (mode res : ℕ) : ℕ :=
  table.foldl (fun res bit => if mode &&& bit.1 ≠ 0 then res ||| bit.2 else res) res

/-- `convert_mode_to_posix`. -/
def convertModeToPosix (iomanxMode : ℕ) : ℕ :=
  let posixMode := 0
  let posixMode := if fioSIsdir iomanxMode then posixMode ||| 0o040000 else posixMode
  let posixMode := if fioSIsreg iomanxMode then posixMode ||| 0o100000 else posixMode
  let posixMode := if fioSIslnk iomanxMode then posixMode ||| 0o120000 else posixMode
  copyBits permissions iomanxMode posixMode

/-- `convert_posix_mode_to_iomanx`. -/
def convertPosixModeToIomanx (posixMode : ℕ) : ℕ :=
  let iomanxMode := 0
  let iomanxMode :=
    if posixMode &&& 0o170000 = 0o040000 then iomanxMode ||| fioSIfdir else iomanxMode
  let iomanxMode :=
    if posixMode &&& 0o170000 = 0o100000 then iomanxMode ||| fioSIfreg else iomanxMode
  let iomanxMode :=
    if posixMode &&& 0o170000 = 0o120000 then iomanxMode ||| fioSIflnk else iomanxMode
  copyBits (permissions.map Prod.swap) posixMode iomanxMode

/-- The types pfs2tar knows. -/
def FileType (ifmt : ℕ) : Prop := ifmt = fioSIfdir ∨ ifmt = fioSIfreg ∨ ifmt = fioSIflnk

/-- `enum TarHeader`. -/
def NAME : ℕ := 0
def MODE : ℕ := 100
def SIZE : ℕ := 124
def MTIME : ℕ := 136
def CHK : ℕ := 148
def TYPE : ℕ := 156
def LINK : ℕ := 157
def MAGIC : ℕ := 257
def VERS : ℕ := 263
def NAME2 : ℕ := 345
def END : ℕ := 512

/-- The value of a `char`, which is signed. -/
def schar (c : UInt8) : ℤ := if c.toNat < 128 then c.toNat else c.toNat - 256

/-- `tar_checksum`: what it writes to `chk`. -/
def tarChecksum (b : ℕ → UInt8) : List UInt8 :=
  let sum := ((List.range END).map fun i => if CHK ≤ i ∧ i < CHK + 8 then 32 else schar (b i)).sum
  snprintf 8 (octal 7 (u32 sum))

/-- The places of the slashes in a text. -/
def slashes (path : CStr) : List ℕ :=
  (List.range path.length).filter fun i => path[i]? = some slash

/-- The loop that moves `path_separate`, given the places of the slashes behind it. -/
def moveSeparate : ℕ → List ℕ → ℕ
  | pathSeparate, [] => pathSeparate
  | pathSeparate, newPathSeparate :: rest =>
    if 155 ≤ newPathSeparate then pathSeparate else moveSeparate newPathSeparate rest

/-- How a path is stored. -/
inductive Stored
  /-- it is too long and has no slash, which is reported -/
  | noSlash
  /-- its first part is too long, which is not -/
  | tooLong
  | stored (b : ℕ → UInt8)

/-- The part of `tar_c_file` that stores the path in the header. -/
def storePath (path : CStr) (b : ℕ → UInt8) : Stored :=
  if 100 < path.length then
    match slashes path with
    | [] => .noSlash
    | first :: rest =>
      let pathSeparate := moveSeparate first rest
      if 155 ≤ pathSeparate then .tooLong
      else .stored (overlay (overlay b NAME2 (path.take pathSeparate)) NAME
        (path.drop pathSeparate))
  else .stored (overlay b NAME path)

/-- The header before the path is stored. -/
def headerStart : ℕ → UInt8 :=
  overlay (overlay (overlay (fun _ => 0) SIZE (List.replicate 11 48)) MAGIC
    (ascii ['u', 's', 't', 'a', 'r'] ++ [0])) VERS (ascii ['0', '0'])

/-- `MODE` and `MTIME`. -/
def storeStat (mode : ℕ) (mtime : Stamp) (b : ℕ → UInt8) : ℕ → UInt8 :=
  overlay (overlay b MODE (snprintf 8 (octal 7 (convertModeToPosix mode)))) MTIME
    (snprintf 12 (octal 11 (u32 (convertIoxStatTimeToPosix mtime))))

/-- `TYPE`. -/
def storeType (type : Char) (b : ℕ → UInt8) : ℕ → UInt8 := overlay b TYPE (ascii [type])

/-- `SIZE`. -/
def storeSize (size : ℕ) (b : ℕ → UInt8) : ℕ → UInt8 :=
  overlay b SIZE (snprintf 12 (octal 11 size))

/-- `CHK`. -/
def storeChecksum (b : ℕ → UInt8) : ℕ → UInt8 := overlay b CHK (tarChecksum b)

/-! ## 4. Reading the fields -/

/-- `strncpy(dst, header + at, n)` into a zeroed buffer, as a string. -/
def field (header : List UInt8) (a n : ℕ) : CStr := cutAt 0 ((header.drop a).take n)

def nameField (header : List UInt8) : CStr := field header NAME 100

def sizeField (header : List UInt8) : ℕ := u32 (strtol8 (field header SIZE 12))

def typeField (header : List UInt8) : UInt8 := header[TYPE]?.getD 0

def mtimeField (header : List UInt8) : ℤ := strtol8 (field header MTIME 12)

def modeField (header : List UInt8) : ℕ := u32 (strtol8 (field header MODE 7))

def linkField (header : List UInt8) : CStr := field header LINK 100

end PfsShell.Pfs2tar
