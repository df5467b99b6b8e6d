import Anyfs.Backend.Cleanup
import Anyfs.Backend.Flush
import Anyfs.Backend.Thread
import Anyfs.Backend.Transfer
import Anyfs.Core.Bridge
import Anyfs.Core.Descriptors
import Anyfs.Core.NativeSession
import Anyfs.Core.Readable
import Anyfs.Core.UrlRead
import Anyfs.Core.Walk
import Anyfs.Core.Watchdog
import Anyfs.Core.Worker
import Anyfs.Fuse.Data
import Anyfs.Fuse.Names
import Anyfs.Json.Readdir
import Anyfs.Ksmbd.Conf
import Anyfs.Ksmbd.FastSem
import Anyfs.Ksmbd.Ipc
import Anyfs.Macho.Elf2dylib
import Anyfs.Macho.Glue
import Anyfs.Name.Links
import Anyfs.Name.Strict
import Anyfs.Nbd.Answers
import Anyfs.Nbd.Sources
import Anyfs.Nfsd.Export
import Anyfs.Probe.Decode
import Anyfs.Probe.Geometry
import Anyfs.Proxy.Ownership
import Anyfs.Proxy.Peers
import Anyfs.Proxy.Stuck
import Anyfs.React.Provider
import Anyfs.Session.Credential
import Anyfs.Session.Discovery
import Anyfs.Session.Exclusion
import Anyfs.Session.Readonly
import Anyfs.Share.Disks
import Anyfs.Win32.Console
