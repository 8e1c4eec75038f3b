/-
# HDLFS, the driver of HDLoader games

`subprojects/hdlfs/main.c`.  A game is a disc image of 2048-byte sectors that is stored in the
slices of an APA partition: the main one and up to 64 subs.  A header in the reserved area of
the main slice says which part of the image each slice holds (`PartSpecs`); `hdlfs_format`
writes it, `hdlfs_mount` reads it into the unit's descriptor, and the descriptor keeps the
position three times over: the sector of the image (`offset`), the slice it is in
(`CurrentPartNum`) and the sector of that slice (`RelativeSectorNumber`).

The driver reaches the disk through iomanX and the APA driver behind it, which are submodules:
they are a parameter, as for pfsd.  The 1024 bytes of the header are passed to it as the
structure they are.

`unsigned int` is a natural number below `2 ^ 32`, `int` an integer, and `u32` is the
conversion.  The semaphores are left out: here one call runs after the other.
-/
import PfsShell.Lib.Bytes
import PfsShell.Lib.Scan

namespace PfsShell.Hdlfs

open PfsShell.Lib

/-- The conversion to `unsigned short int`. -/
def u16 (z : ℤ) : ℕ := (z % 65536).toNat

/-! ## 1. The header -/

/-- `part_specs_t`: where a slice's part of the image starts, in 2048-byte sectors; where it
lies, in 512-byte sectors; and its size, in bytes. -/
structure PartSpecs where
  partOffset : ℕ := 0
  dataStart : ℕ := 0
  partSize : ℕ := 0

/-- `hdl_game_info`.  `part_specs` has 65 entries. -/
structure HdlGameInfo where
  magic : ℕ := 0
  reserved : ℕ := 0
  version : ℕ := 0
  gamename : List UInt8 := []
  hdlCompatFlags : ℕ := 0
  ops2lCompatFlags : ℕ := 0
  dmaType : ℕ := 0
  dmaMode : ℕ := 0
  startup : List UInt8 := []
  layer1Start : ℕ := 0
  discType : ℕ := 0
  numPartitions : ℤ := 0
  partSpecs : ℕ → PartSpecs := fun _ => {}

/-- `struct HDLFS_FormatArgs`. -/
structure HdlfsFormatArgs where
  compatFlags : ℕ := 0
  discType : ℕ := 0
  trType : ℕ := 0
  trMode : ℕ := 0
  numSectors : ℕ
  layer1Start : ℕ := 0
  gameTitle : List UInt8 := []
  startupPath : List UInt8 := []

/-- The header `hdlfs_format` writes, with the given number of slices and parts. -/
def HdlfsFormatArgs.info (args : HdlfsFormatArgs) (numPartitions : ℤ)
    (partSpecs : ℕ → PartSpecs) : HdlGameInfo where
  magic := 0xDEADFEED
  version := 1
  gamename := args.gameTitle
  hdlCompatFlags := 0
  ops2lCompatFlags := args.compatFlags
  dmaType := args.trType
  dmaMode := args.trMode
  startup := strncpy 60 args.startupPath
  layer1Start := args.layer1Start
  discType := args.discType
  numPartitions := numPartitions
  partSpecs := partSpecs

/-! ## 2. Calls to iomanX -/

/-- `HIOCTRANSFER`'s argument.  `buffer` is what is in the buffer before the call. -/
structure HddIoctl2Transfer where
  sub : ℕ
  sector : ℕ
  size : ℕ
  mode : ℕ
  buffer : List UInt8

/-- The calls the driver makes, on a device by its name or on a descriptor. -/
inductive Call
  | devctlMaxsector (blockdev : CStr)
  | getstat (blockdev : CStr)
  | open (blockdev : CStr) (flags : ℕ)
  | close (fd : ℤ)
  | lseek (fd : ℤ) (offset : ℕ)
  | read (fd : ℤ) (size : ℕ)
  | write (fd : ℤ) (info : HdlGameInfo) (size : ℕ)
  | hiocnsub (fd : ℤ)
  | hiocgetpartstart (fd : ℤ) (sub : ℕ)
  | hiocgetsize (fd : ℤ) (sub : ℕ)
  | hiocflush (fd : ℤ)
  | hioctransfer (fd : ℤ) (arg : HddIoctl2Transfer)

/-- The fields of `iox_stat_t` that `hdlfs_chstat` uses. -/
structure IoxStat where
  attr : ℕ := 0
  private0 : ℕ := 0
  private1 : ℕ := 0

/-- What a call returns: the value, and what it put into `stat.mode`, the header or the
buffer it was given. -/
structure Reply where
  ret : ℤ := 0
  mode : ℕ := 0
  info : HdlGameInfo := {}
  buffer : List UInt8 := []

/-- iomanX over its own state. -/
abbrev IomanX (σ : Type) := Call → σ → Reply × σ

/-! ## 3. The units -/

/-- `struct HDLFS_FileDescriptor`. -/
structure HdlfsFileDescriptor where
  mountFD : ℤ := -1
  numPartitions : ℕ := 0
  currentPartNum : ℕ := 0
  relativeSectorNumber : ℕ := 0
  offset : ℕ := 0
  size : ℕ := 0
  partSpecs : ℕ → PartSpecs := fun _ => {}

/-- The driver: `FD_List`, which has two entries, and iomanX's state. -/
structure Driver (σ : Type) where
  fdList : ℕ → HdlfsFileDescriptor := fun _ => {}
  world : σ

/-- `iomanX_iop_file_t`.  `privdata` is the index of the entry of `FD_List` it points to. -/
structure IopFile where
  mode : ℕ := 0
  unit : ℕ := 0
  privdata : ℕ := 0

/-- The sectors a slice has in front of its part of the image. -/
def reservedSectors (sub : ℕ) : ℕ := if sub = 0 then 0x2000 else 4

/-- `HDL_GAME_DATA_OFFSET`. -/
def hdlGameDataOffset : ℕ := 0x100000

section Driver

variable {σ : Type} (io : IomanX σ)

/-! ## 4. Format -/

/-- What the loop of `hdlfs_format` carries. -/
structure Laying (σ : Type) where
  result : ℤ := 0
  sectorNumber : ℕ := 0
  partSpecs : ℕ → PartSpecs := fun _ => {}
  world : σ

/-- How many 2048-byte sectors of the image a slice of `size` sectors gets, with `remaining`
of them left. -/
def sectorsInPart (sub : ℕ) (size : ℤ) (remaining : ℕ) : ℕ :=
  let sectors := u32 (size - reservedSectors sub) / 4
  if remaining < sectors then remaining else sectors

/-- The loop of `hdlfs_format`, with `k` slices left from slice `i`. -/
def layParts (fd : ℤ) (numberOfSectors : ℕ) : ℕ → ℕ → Laying σ → Laying σ
  | 0, _, l => l
  | k + 1, i, l =>
    let r := io (.hiocgetpartstart fd i) l.world
    if 0 ≤ r.1.ret then
      let g := io (.hiocgetsize fd i) r.2
      let sectors := sectorsInPart i g.1.ret (u32 (numberOfSectors - l.sectorNumber))
      let spec : PartSpecs :=
        { partOffset := l.sectorNumber
          dataStart := u32 (r.1.ret + reservedSectors i)
          partSize := (l.partSpecs i).partSize }
      if 0x200000 ≤ sectors then
        { l with
          result := -22
          partSpecs := Function.update l.partSpecs i spec
          world := g.2 }
      else
        layParts fd numberOfSectors k (i + 1)
          { result := r.1.ret
            sectorNumber := u32 (l.sectorNumber + sectors)
            partSpecs :=
              Function.update l.partSpecs i { spec with partSize := u32 (sectors * 2048) }
            world := g.2 }
    else { l with result := r.1.ret, world := r.2 }

/-- What follows the loop of `hdlfs_format`. -/
def writeInfo (fd : ℤ) (args : HdlfsFormatArgs) (numPartitions : ℤ) (l : Laying σ) : ℤ × σ :=
  if 0 ≤ l.result then
    if l.sectorNumber < args.numSectors then (-12, l.world)
    else
      let r := io (.write fd (args.info numPartitions l.partSpecs) 1024) l.world
      (if r.1.ret = 1024 then 0 else -5, r.2)
  else (l.result, l.world)

/-- `hdlfs_format`. -/
def hdlfsFormat (args : HdlfsFormatArgs) (blockdev : CStr) (w : σ) : ℤ × σ :=
  -- `MaxSectorsPerPart` is not used
  let w := (io (.devctlMaxsector blockdev) w).2
  let o := io (.open blockdev 2) w
  if 0 ≤ o.1.ret then
    let w := (io (.lseek o.1.ret hdlGameDataOffset) o.2).2
    let n := io (.hiocnsub o.1.ret) w
    let l := layParts io o.1.ret args.numSectors (u32 (n.1.ret + 1)) 0 { world := n.2 }
    let r := writeInfo io o.1.ret args (n.1.ret + 1) l
    (r.1, (io (.close o.1.ret) r.2).2)
  else (o.1.ret, o.2)

/-! ## 5. Mount and open -/

/-- The loop of `hdlfs_mount` that adds up the sizes of the slices. -/
def addSizes (fd : ℤ) : ℕ → ℕ → ℕ → σ → ℕ × σ
  | 0, _, size, w => (size, w)
  | k + 1, part, size, w =>
    let g := io (.hiocgetsize fd part) w
    addSizes fd k (part + 1) (u32 (size + g.1.ret)) g.2

/-- The innermost part of `hdlfs_mount`: the header is read, and the descriptor filled in. -/
def readInfo (unit : ℕ) (f : HdlfsFileDescriptor) (w : σ) : ℤ × HdlfsFileDescriptor × σ :=
  let w := (io (.lseek f.mountFD hdlGameDataOffset) w).2
  let r := io (.read f.mountFD 1024) w
  if r.1.ret = 1024 then
    let n := io (.hiocnsub f.mountFD) r.2
    let z := addSizes io f.mountFD (u16 (n.1.ret + 1)) 0 0 n.2
    (unit,
      { f with
        size := z.1
        numPartitions := u16 (n.1.ret + 1)
        offset := 0
        currentPartNum := 0
        relativeSectorNumber := 0
        -- the copy has the 65 entries of the array
        partSpecs := fun i => if i < 65 then r.1.info.partSpecs i else f.partSpecs i },
      z.2)
  else (r.1.ret, f, r.2)

/-- `hdlfs_mount`.  `FIO_MT_RDWR` is 0. -/
def hdlfsMount (file : IopFile) (blockdev : CStr) (flags : ℕ) (d : Driver σ) : ℤ × Driver σ :=
  if file.unit < 2 then
    let s := io (.getstat blockdev) d.world
    if 0 ≤ s.1.ret then
      if s.1.mode = 0x1337 then
        let o := io (.open blockdev (if flags = 0 then 3 else 1)) s.2
        let f := { d.fdList file.unit with mountFD := o.1.ret }
        let r := if 0 ≤ o.1.ret then readInfo io file.unit f o.2 else (o.1.ret, f, o.2)
        (r.1, { fdList := Function.update d.fdList file.unit r.2.1, world := r.2.2 })
      else (-24, { d with world := s.2 })
    else (s.1.ret, { d with world := s.2 })
  else (-19, d)

/-- `hdlfs_open`. -/
def hdlfsOpen (file : IopFile) (d : Driver σ) : ℤ × IopFile :=
  if file.unit < 2 ∧ 0 ≤ (d.fdList file.unit).mountFD then
    (file.unit, { file with privdata := file.unit })
  else (-19, file)

/-! ## 6. Transfers -/

/-- The sectors that are left in the current slice. -/
def HdlfsFileDescriptor.sectorsLeft (f : HdlfsFileDescriptor) : ℕ :=
  u32 (((f.partSpecs f.currentPartNum).partSize / 512 : ℕ) - f.relativeSectorNumber)

/-- "If there are no more sectors in the current partition, move on." -/
def HdlfsFileDescriptor.moveOn (f : HdlfsFileDescriptor) : HdlfsFileDescriptor :=
  if f.sectorsLeft < 1 then
    { f with currentPartNum := u16 (f.currentPartNum + 1), relativeSectorNumber := 0 }
  else f

/-- The loop of `hdlfs_io_internal`.  `result` is that of the transfer before; `buffer` is what
the buffer holds from where the pointer is now. -/
def ioLoop (mode : ℕ) : ℕ → ℕ → ℤ → HdlfsFileDescriptor → List UInt8 → σ →
    Option (ℤ × HdlfsFileDescriptor × List UInt8 × σ)
  | 0, _, _, _, _, _ => none
  | fuel + 1, sectorsRemaining, result, f, buffer, w =>
    if 0 < sectorsRemaining then
      let f := f.moveOn
      let n := if f.sectorsLeft < sectorsRemaining then f.sectorsLeft else sectorsRemaining
      let r := io (.hioctransfer f.mountFD
        { sub := f.currentPartNum
          sector := u32 (reservedSectors f.currentPartNum + f.relativeSectorNumber)
          size := n
          mode := mode
          buffer := buffer.take (n * 512) }) w
      if r.1.ret < 0 then some (r.1.ret, f, r.1.buffer ++ buffer.drop (n * 512), r.2)
      else
        (ioLoop mode fuel (sectorsRemaining - n) r.1.ret
          { f with
            offset := u32 (f.offset + n)
            relativeSectorNumber := u32 (f.relativeSectorNumber + n) }
          (buffer.drop (n * 512)) r.2).map fun (result, f, rest, w) =>
            (result, f, r.1.buffer ++ rest, w)
    else some (result, f, buffer, w)

/-- `hdlfs_io_internal`: what it returns, and what is in the buffer afterwards.  A buffer is
`none` for `NULL`. -/
def hdlfsIoInternal (fuel : ℕ) (file : IopFile) (buffer : Option (List UInt8)) (size : ℤ)
    (mode : ℕ) (d : Driver σ) : Option (ℤ × List UInt8 × Driver σ) :=
  match buffer with
  | none => some (-22, [], d)
  | some buffer =>
    if size % 512 ≠ 0 then some (-22, buffer, d)
    else
      (ioLoop io mode fuel (u32 (size / 512)) 0 (d.fdList file.privdata) buffer d.world).map
        fun (result, f, buffer, w) =>
          (if result < 0 then result else size, buffer,
            { fdList := Function.update d.fdList file.privdata f, world := w })

/-- `hdlfs_read`. -/
def hdlfsRead (fuel : ℕ) (file : IopFile) (buffer : Option (List UInt8)) (size : ℤ)
    (d : Driver σ) : Option (ℤ × List UInt8 × Driver σ) :=
  if file.mode &&& 1 ≠ 0 then hdlfsIoInternal io fuel file buffer size 0 d
  else some (-22, buffer.getD [], d)

/-- `hdlfs_write`. -/
def hdlfsWrite (fuel : ℕ) (file : IopFile) (buffer : Option (List UInt8)) (size : ℤ)
    (d : Driver σ) : Option (ℤ × List UInt8 × Driver σ) :=
  if file.mode &&& 2 ≠ 0 then hdlfsIoInternal io fuel file buffer size 1 d
  else some (-30, buffer.getD [], d)

/-! ## 7. Seeking -/

/-- The slice whose part of the image has sector `offset`, or `numPartitions`. -/
def HdlfsFileDescriptor.partOf (f : HdlfsFileDescriptor) (offset : ℤ) : ℕ :=
  scan (fun i => (f.partSpecs i).partOffset ≤ u32 offset ∧
    u32 offset < u32 ((f.partSpecs i).partOffset + ((f.partSpecs i).partSize / 2048 : ℕ)))
    f.numPartitions

/-- The `switch` of `hdlfs_lseek`: SEEK_SET, SEEK_CUR, SEEK_END. -/
def HdlfsFileDescriptor.seekTo (f : HdlfsFileDescriptor) (offset : ℤ) : ℕ → ℕ
  | 0 => u32 (offset * 4)
  | 1 => u32 (f.offset + offset * 4)
  | 2 => u32 (f.size - offset * 4)
  | _ => f.offset

/-- `hdlfs_lseek`. -/
def hdlfsLseek (file : IopFile) (offset : ℤ) (whence : ℕ) (d : Driver σ) : ℤ × Driver σ :=
  if file.unit < 2 ∧ 0 ≤ (d.fdList file.unit).mountFD then
    let f := d.fdList file.privdata
    let i := f.partOf offset
    if i < f.numPartitions then
      let target := f.seekTo offset whence
      ((target / 4 : ℕ),
        { d with
          fdList := Function.update d.fdList file.privdata
            { f with
              offset := target
              relativeSectorNumber := u32 (target - (f.partSpecs i).partOffset * 4)
              currentPartNum := i } })
    else (-22, d)
  else (-19, d)

/-! ## 8. Umount -/

/-- `hdlfs_umount`, which is `unmount` of the file's unit. -/
def hdlfsUmount (file : IopFile) (d : Driver σ) : ℤ × Driver σ :=
  let f := d.fdList file.unit
  if file.unit < 2 ∧ 0 ≤ f.mountFD then
    let w := (io (.hiocflush f.mountFD) d.world).2
    let w := (io (.close f.mountFD) w).2
    (0, { fdList := Function.update d.fdList file.unit { f with mountFD := -1 }, world := w })
  else (-19, d)

/-! ## 9. Changing the header -/

/-- `FIO_CST_MODE | FIO_CST_SIZE | FIO_CST_CT | FIO_CST_AT | FIO_CST_MT`. -/
def fioCstFixed : ℕ := 0x3d

/-- `FIO_CST_ATTR`. -/
def fioCstAttr : ℕ := 0x02

/-- `FIO_CST_PRVT`. -/
def fioCstPrvt : ℕ := 0x40

/-- The header with the fields of `stat` that `flags` asks for. -/
def HdlGameInfo.setStat (stat : IoxStat) (flags : ℕ) (info : HdlGameInfo) : HdlGameInfo :=
  let info :=
    if flags &&& fioCstAttr ≠ 0 then
      { info with
        dmaMode := stat.attr / 2 ^ 24
        dmaType := stat.attr / 2 ^ 16 % 256
        ops2lCompatFlags := stat.attr / 2 ^ 8 % 256
        hdlCompatFlags := stat.attr % 256 }
    else info
  if flags &&& fioCstPrvt ≠ 0 then
    { info with discType := stat.private0 / 2 ^ 16, layer1Start := stat.private1 }
  else info

/-- The header with a new title, which is shorter than `gamename`. -/
def HdlGameInfo.setTitle (newName : List UInt8) (info : HdlGameInfo) : HdlGameInfo :=
  { info with gamename := newName ++ List.replicate (160 - newName.length) 0 }

/-- `hdlfs_chstat`.  What it returns when it has written the header is the result of the
write. -/
def hdlfsChstat (file : IopFile) (stat : IoxStat) (flags : ℕ) (d : Driver σ) : ℤ × Driver σ :=
  let partFD := (d.fdList file.unit).mountFD
  if file.unit < 2 ∧ 0 ≤ partFD then
    let w := (io (.lseek partFD hdlGameDataOffset) d.world).2
    let r := io (.read partFD 1024) w
    if r.1.ret = 1024 then
      if flags &&& fioCstFixed = 0 then
        let w := (io (.lseek partFD hdlGameDataOffset) r.2).2
        let s := io (.write partFD (r.1.info.setStat stat flags) 1024) w
        (if s.1.ret = 1024 then 1024 else -5, { d with world := s.2 })
      else (-22, { d with world := r.2 })
    else (-5, { d with world := r.2 })
  else (-19, d)

/-- `hdlfs_UpdateGameTitle`.  `newName` has `len` bytes. -/
def hdlfsUpdateGameTitle (unit : ℕ) (newName : List UInt8) (d : Driver σ) : ℤ × Driver σ :=
  if newName.length < 160 then
    let partFD := (d.fdList unit).mountFD
    let w := (io (.lseek partFD hdlGameDataOffset) d.world).2
    let r := io (.read partFD 1024) w
    if r.1.ret = 1024 then
      let w := (io (.lseek partFD hdlGameDataOffset) r.2).2
      let s := io (.write partFD (r.1.info.setTitle newName) 1024) w
      (if s.1.ret = 1024 then 0 else -5, { d with world := s.2 })
    else (-5, { d with world := r.2 })
  else (-22, d)

/-- `hdlfs_devctl` with `HDLFS_DEVCTL_SET_TITLE`. -/
def hdlfsDevctlSetTitle (file : IopFile) (arg : List UInt8) (d : Driver σ) : ℤ × Driver σ :=
  if file.unit < 2 ∧ 0 ≤ (d.fdList file.unit).mountFD then hdlfsUpdateGameTitle io file.unit arg d
  else (-19, d)

end Driver

end PfsShell.Hdlfs
