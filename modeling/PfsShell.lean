import PfsShell.Lib.Run
import PfsShell.Pfsd.State
import PfsShell.Pfsd.Clients
import PfsShell.Pfsd.Acts
import PfsShell.Pfsd.Tables
import PfsShell.Pfsd.OpenFiles
import PfsShell.Pfsd.Mounts
import PfsShell.Pfsd.Routing
import PfsShell.Pfsd.NonInterference
import PfsShell.Pfsd.Isolation
import PfsShell.Pfsd.Release
import PfsShell.Pfsd.Client
import PfsShell.Pfsd.Protocol
import PfsShell.Pfsd.Main
import PfsShell.Hdlfs.Apa
import PfsShell.Hdlfs.Layout
import PfsShell.Hdlfs.FlatImage
import PfsShell.Lib.Calendar
import PfsShell.Lib.Octal
import PfsShell.Pfs2tar.Iomanx
import PfsShell.Pfs2tar.Backup
import PfsShell.Pfs2tar.PlainFs
import PfsShell.Pfs2tar.Entry
import PfsShell.Pfs2tar.Walk
import PfsShell.Pfs2tar.Archive
import PfsShell.Pfs2tar.Rebuild
import PfsShell.Pfs2tar.RoundTrip
import PfsShell.Pfs2tar.Alignment
import PfsShell.Pfsd.PollTable
import PfsShell.Lib.Partial
import PfsShell.Pfs2tar.Simulation
import PfsShell.Pfs2tar.Framing
import PfsShell.Hdlfs.Position
import PfsShell.Hdlfs.Mounted
import PfsShell.Hdlfs.Updates
import PfsShell.Pfsd.SharedBuffer
import PfsShell.Shell.Commands
import PfsShell.Shell.Exec
import PfsShell.Shell.CurrentDir
import PfsShell.Shell.Copies
import PfsShell.Pfs2tar.Losses
import PfsShell.Pfsd.Cleanup
import PfsShell.Pfsd.Transfer
import PfsShell.Pfs2tar.Ustar
import PfsShell.Pfs2tar.Content
import PfsShell.Pfs2tar.PathBuffer
import PfsShell.Shell.HostCopies
import PfsShell.Shell.CanonicalPath
import PfsShell.Lib.Layout
import PfsShell.Pfsd.Packet
import PfsShell.Pfsd.Marshalling
import PfsShell.Lib.Tokens
import PfsShell.Shell.ParseLine
import PfsShell.Hdlfs.Getstat
import PfsShell.Hdlfs.Slices
import PfsShell.Hdlfs.Seek
import PfsShell.Hdlfs.MountFailure
import PfsShell.Fuse.Stat
import PfsShell.Fuse.Adapter
import PfsShell.Fuse.Offsets
import PfsShell.Lib.Drain
import PfsShell.Shell.Listings
import PfsShell.Pfs2tar.Directories
import PfsShell.Fuse.Directories
import PfsShell.Shell.Mkpart
import PfsShell.Shell.Df
import PfsShell.Fuse.Links
import PfsShell.Pfsd.Translation
import PfsShell.Hdlfs.Chstat
import PfsShell.Disk.Combining
import PfsShell.Disk.Atad
import PfsShell.Lib.Heap
import PfsShell.Shell.Getline
import PfsShell.Pfsd.Atomic
import PfsShell.Pfsd.Progress
import PfsShell.Sdk.Thsemap
import PfsShell.Shell.Interface
import PfsShell.Shell.Scripts
import PfsShell.Lib.Sections
import PfsShell.Hdlfs.Sections
import PfsShell.Fuse.Handles
import PfsShell.Lib.Commit
import PfsShell.Fuse.Threads
import PfsShell.Sdk.Threads
