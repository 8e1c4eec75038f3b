/-
# Stat records between FUSE and iomanX

`src/iomanx_adapter.c` mounts a PFS partition through FUSE, so it converts the `iox_stat_t` of
iomanX into a `struct stat` and back: modes, sizes and the three times.  `host_adapter.c` and
`pfs2tar.c` have conversions of times of their own.

A size is split into two words of 32 bits.  `off_t` and `time_t` have 64 bits.

* `convertTimeToPosix_convertTimeToIomanx`, `convertTimeToIomanx_convertTimeToPosix`: a time comes
  back, in either direction;
* `conversions_survive`: so does a stat record, and the copies of the conversions agree.
-/
import PfsShell.Pfs2tar.Header

namespace PfsShell.Fuse

open PfsShell.Lib
open PfsShell.Pfs2tar (Stamp IoxStat IoxDirent uchar fioSIsdir fioSIsreg fioSIslnk fioSIfdir
  fioSIfreg fioSIflnk)

/-! ## 1. Times -/

/-- `z & 0xff`, of an `int`. -/
def lowByte (z : ℤ) : ℤ := z % 256

/-- `convert_time_to_posix`. -/
def convertTimeToPosix (iomanxTime : Stamp) : ℤ :=
  let timeinfo : Tm :=
    { sec := iomanxTime.sec.toNat
      min := iomanxTime.min.toNat
      hour := iomanxTime.hour.toNat
      mday := iomanxTime.day.toNat
      mon := iomanxTime.month.toNat - 1
      year := ((iomanxTime.yearLow.toNat ||| iomanxTime.yearHigh.toNat <<< (8 : ℕ) : ℕ) : ℤ) -
        1900 }
  let rawtime := timegm timeinfo
  rawtime + 9 * 60 * 60

/-- `convert_time_to_iomanx`. -/
def convertTimeToIomanx (posixTime : ℤ) : Stamp :=
  let rawtime := posixTime - 9 * 60 * 60
  let timeinfo := gmtime rawtime
  { unused := 0
    sec := uchar timeinfo.sec
    min := uchar timeinfo.min
    hour := uchar timeinfo.hour
    day := uchar timeinfo.mday
    month := uchar (timeinfo.mon + 1)
    yearLow := uchar (lowByte (timeinfo.year + 1900))
    yearHigh := uchar (lowByte ((timeinfo.year + 1900) >>> (8 : ℕ))) }

/-- `convert_time_to_iomanx` of `host_adapter.c`. -/
def hostConvertTimeToIomanx (posixTime : ℤ) : Stamp :=
  let rawtime := posixTime - 9 * 60 * 60
  let timeinfo := gmtime rawtime
  { unused := 0
    sec := uchar timeinfo.sec
    min := uchar timeinfo.min
    hour := uchar timeinfo.hour
    day := uchar timeinfo.mday
    month := uchar (timeinfo.mon + 1)
    yearLow := uchar (lowByte (timeinfo.year + 1900))
    yearHigh := uchar (lowByte ((timeinfo.year + 1900) >>> (8 : ℕ))) }

/-- The year of a time in Japan has two bytes. -/
def Encodable (time : ℤ) : Prop :=
  0 ≤ (gmtime (time - 9 * 60 * 60)).year + 1900 ∧
    (gmtime (time - 9 * 60 * 60)).year + 1900 ≤ 65535

/-- A date and time of the calendar, as iomanX writes it. -/
structure WrittenDate (t : Stamp) : Prop where
  unused : t.unused = 0
  valid : t.tm.Valid

/-- The decoders decode through the same broken-down time, -/
theorem convertTimeToPosix_eq (t : Stamp) :
    convertTimeToPosix t = timegm t.tm + 9 * 60 * 60 := rfl

@[simp] theorem uchar_lowByte (z : ℤ) : uchar (lowByte z) = uchar z := by
  rw [uchar, uchar, lowByte, Int.emod_emod]

/-- and the encoders encode it in the same way. -/
theorem convertTimeToIomanx_eq (time : ℤ) :
    convertTimeToIomanx time = .ofTm (gmtime (time - 9 * 60 * 60)) := by
  simp only [convertTimeToIomanx, uchar_lowByte, Stamp.ofTm]

theorem toNat_uchar {z : ℤ} (h : 0 ≤ z ∧ z < 256) : ((uchar z).toNat : ℤ) = z := by
  rw [uchar, UInt8.toNat_ofNat']
  omega

/-- The timestamp of a broken-down time gives it back. -/
theorem tm_ofTm {tm : Tm} (hv : tm.Valid) (hyear : 0 ≤ tm.year + 1900 ∧ tm.year + 1900 ≤ 65535) :
    (Stamp.ofTm tm).tm = tm := by
  obtain ⟨hsec, hmin, hhour, hmon, hday⟩ := hv
  have hlong := month_le (1900 + tm.year) (m := tm.mon.toNat) (by omega)
  have hyearEq := Stamp.year_eq (Stamp.ofTm tm)
  have hlow : ((Stamp.ofTm tm).yearLow.toNat : ℤ) = (tm.year + 1900) % 256 := by
    show ((uchar (tm.year + 1900)).toNat : ℤ) = _
    rw [← uchar_lowByte, toNat_uchar (by unfold lowByte; omega), lowByte]
  have hhigh : ((Stamp.ofTm tm).yearHigh.toNat : ℤ) = (tm.year + 1900) / 256 := by
    show ((uchar ((tm.year + 1900) >>> (8 : ℕ))).toNat : ℤ) = _
    rw [Int.shiftRight_eq_div_pow]
    exact toNat_uchar (by omega)
  push_cast at hyearEq
  refine Tm.ext (toNat_uchar (by omega)) (toNat_uchar (by omega)) (toNat_uchar (by omega))
    (toNat_uchar (by omega)) ?_ (by omega)
  show ((uchar (tm.mon + 1)).toNat : ℤ) - 1 = tm.mon
  rw [toNat_uchar (by omega)]
  omega

/-- **A time comes back** when its year has two bytes, -/
theorem convertTimeToPosix_convertTimeToIomanx {time : ℤ} (h : Encodable time) :
    convertTimeToPosix (convertTimeToIomanx time) = time := by
  rw [convertTimeToIomanx_eq, convertTimeToPosix_eq, tm_ofTm (gmtime_valid _) h, timegm_gmtime]
  omega

/-- **and so does a date** of the calendar. -/
theorem convertTimeToIomanx_convertTimeToPosix {t : Stamp} (h : WrittenDate t) :
    convertTimeToIomanx (convertTimeToPosix t) = t := by
  have hback : { t with unused := 0 } = t := by rw [← h.unused]
  rw [convertTimeToIomanx_eq, convertTimeToPosix_eq, add_sub_cancel_right,
    gmtime_timegm h.valid, Stamp.ofTm_tm, hback]

/-- The copies of an encoder and of a decoder agree with those of `iomanx_adapter.c`. -/
theorem encoders_agree (time : ℤ) :
    hostConvertTimeToIomanx time = convertTimeToIomanx time ∧
      Pfs2tar.convertPosixTimeToIoxTime time = convertTimeToIomanx time :=
  ⟨rfl, by rw [convertTimeToIomanx_eq, Pfs2tar.convertPosixTime_eq]⟩

theorem decoders_agree (t : Stamp) :
    Pfs2tar.convertIoxStatTimeToPosix t = convertTimeToPosix t := rfl

/-! ## 2. Modes -/

/-- `convert_mode_to_posix`.  A permission that anyone has, everyone gets. -/
def convertModeToPosix (iomanxMode : ℕ) : ℕ :=
  let posixMode := 0
  let posixMode := if fioSIsdir iomanxMode then posixMode ||| 0o040000 else posixMode
  let posixMode := if fioSIsreg iomanxMode then posixMode ||| 0o100000 else posixMode
  let posixMode := if fioSIslnk iomanxMode then posixMode ||| 0o120000 else posixMode
  Pfs2tar.copyBits [(0x0100 ||| 0x0020 ||| 0x0004, 0o0444), (0x0080 ||| 0x0010 ||| 0x0002, 0o0222),
    (0x0040 ||| 0x0008 ||| 0x0001, 0o0111), (0x0800, 0o4000), (0x0400, 0o2000),
    (0x0200, 0o1000)] iomanxMode posixMode

/-- `convert_mode_to_iomanx`. -/
def convertModeToIomanx (posixMode : ℕ) : ℕ :=
  let iomanxMode := 0
  let iomanxMode :=
    if posixMode &&& 0o170000 = 0o040000 then iomanxMode ||| fioSIfdir else iomanxMode
  let iomanxMode :=
    if posixMode &&& 0o170000 = 0o100000 then iomanxMode ||| fioSIfreg else iomanxMode
  let iomanxMode :=
    if posixMode &&& 0o170000 = 0o120000 then iomanxMode ||| fioSIflnk else iomanxMode
  Pfs2tar.copyBits [(0o0444, 0x0100 ||| 0x0020 ||| 0x0004), (0o0222, 0x0080 ||| 0x0010 ||| 0x0002),
    (0o0111, 0x0040 ||| 0x0008 ||| 0x0001), (0o4000, 0x0800), (0o2000, 0x0400),
    (0o1000, 0x0200)] posixMode iomanxMode

/-! ## 3. Stat records -/

/-- `struct stat`, the fields that are used. -/
structure PosixStat where
  mode : ℕ := 0
  size : ℤ := 0
  ctime : ℤ := 0
  atime : ℤ := 0
  mtime : ℤ := 0
  deriving DecidableEq

/-- The conversion to `off_t`. -/
def offT (z : ℤ) : ℤ := z.bmod (2 ^ 64)

/-- `convert_stat_to_posix`. -/
def convertStatToPosix (iomanxStat : IoxStat) : PosixStat where
  size := offT ((iomanxStat.size ||| iomanxStat.hisize <<< (32 : ℕ) : ℕ) : ℤ)
  mode := convertModeToPosix iomanxStat.mode
  ctime := convertTimeToPosix iomanxStat.ctime
  atime := convertTimeToPosix iomanxStat.atime
  mtime := convertTimeToPosix iomanxStat.mtime

/-- `convert_stat_to_iomanx`. -/
def convertStatToIomanx (posixStat : PosixStat) : IoxStat where
  size := u32 posixStat.size
  hisize := u32 (posixStat.size >>> (32 : ℕ))
  mode := convertModeToIomanx posixStat.mode
  ctime := convertTimeToIomanx posixStat.ctime
  atime := convertTimeToIomanx posixStat.atime
  mtime := convertTimeToIomanx posixStat.mtime

/-- A size of a file, in two words. -/
theorem convertStat_size {st : PosixStat} (h : 0 ≤ st.size ∧ st.size < 2 ^ 63) :
    (convertStatToPosix (convertStatToIomanx st)).size = st.size := by
  have hlow : u32 st.size < 2 ^ 32 := by
    unfold u32
    omega
  have hor := Nat.shiftLeft_add_eq_or_of_lt hlow (u32 (st.size >>> (32 : ℕ)))
  have hword : ((u32 st.size ||| u32 (st.size >>> (32 : ℕ)) <<< (32 : ℕ) : ℕ) : ℤ) = st.size := by
    rw [Nat.or_comm, ← hor, Nat.shiftLeft_eq, Int.shiftRight_eq_div_pow]
    unfold u32
    omega
  simp only [convertStatToPosix, convertStatToIomanx, hword]
  exact Int.bmod_eq_of_le (by omega) (by omega)

/-- The three times and the size of a record can be written. -/
structure PosixStat.Writable (st : PosixStat) : Prop where
  ctime : Encodable st.ctime
  atime : Encodable st.atime
  mtime : Encodable st.mtime
  size : 0 ≤ st.size ∧ st.size < 2 ^ 63

/-- Two records with the same times and size. -/
structure PosixStat.SameFile (st st' : PosixStat) : Prop where
  ctime : st.ctime = st'.ctime
  atime : st.atime = st'.atime
  mtime : st.mtime = st'.mtime
  size : st.size = st'.size

/-- A record comes back. -/
theorem convertStatToPosix_convertStatToIomanx {st : PosixStat} (h : st.Writable) :
    (convertStatToPosix (convertStatToIomanx st)).SameFile st where
  ctime := convertTimeToPosix_convertTimeToIomanx h.ctime
  atime := convertTimeToPosix_convertTimeToIomanx h.atime
  mtime := convertTimeToPosix_convertTimeToIomanx h.mtime
  size := convertStat_size h.size

/-- **Times and sizes survive every conversion**: a time and a date come back, all copies of the
encoder and of the decoder agree, and a stat record keeps its times and its size. -/
theorem conversions_survive :
    (∀ time, Encodable time → convertTimeToPosix (convertTimeToIomanx time) = time) ∧
    (∀ t, WrittenDate t → convertTimeToIomanx (convertTimeToPosix t) = t) ∧
    (∀ time, hostConvertTimeToIomanx time = convertTimeToIomanx time ∧
      Pfs2tar.convertPosixTimeToIoxTime time = convertTimeToIomanx time) ∧
    (∀ t, Pfs2tar.convertIoxStatTimeToPosix t = convertTimeToPosix t) ∧
    ∀ st : PosixStat, st.Writable →
      (convertStatToPosix (convertStatToIomanx st)).SameFile st :=
  ⟨fun _ => convertTimeToPosix_convertTimeToIomanx,
    fun _ => convertTimeToIomanx_convertTimeToPosix, encoders_agree, decoders_agree,
    fun _ => convertStatToPosix_convertStatToIomanx⟩

/-- The last second of a leap day. -/
def leapSecond : Stamp := ⟨0, 59, 59, 23, 29, 2, 208, 7⟩

/-- A file of 5 GiB; the time is nine hours later. -/
def leapFile : PosixStat :=
  { mode := 0o100644, size := 5 * 2 ^ 30, ctime := 951901199, atime := 951901199,
    mtime := 951901199 }

example : convertTimeToIomanx 951901199 = leapSecond := by decide

theorem conversions_survive_leapDay :
    convertTimeToPosix (convertTimeToIomanx 951901199) = 951901199 ∧
    convertTimeToIomanx (convertTimeToPosix leapSecond) = leapSecond ∧
    (convertStatToPosix (convertStatToIomanx leapFile)).SameFile leapFile := by
  have htime : Encodable 951901199 := ⟨by decide, by decide⟩
  have hdate : WrittenDate leapSecond :=
    ⟨rfl, by decide, by decide, by decide, by decide, by decide⟩
  exact ⟨conversions_survive.1 _ htime, conversions_survive.2.1 _ hdate,
    conversions_survive.2.2.2.2 _ ⟨htime, htime, htime, by decide⟩⟩

end PfsShell.Fuse
