import NeonWrt.Lib.CString
import NeonWrt.Lib.Glob
import NeonWrt.Lib.Json
import NeonWrt.Lib.Run
import NeonWrt.Procd.Name
import NeonWrt.Procd.Instance
import NeonWrt.Procd.Service
import NeonWrt.Procd.Selection
import NeonWrt.Procd.Trigger
import NeonWrt.Uci.Manifest
import NeonWrt.Uci.Csv
import NeonWrt.Uci.Apply
import NeonWrt.Uci.Watch
import NeonWrt.Uci.Serve
import NeonWrt.Lib.Binary
import NeonWrt.Nmbm.Chip
import NeonWrt.Nmbm.Instance
import NeonWrt.Nmbm.Table
import NeonWrt.Nmbm.Attach
import NeonWrt.Nmbm.Layout
import NeonWrt.Nmbm.Mapping
import NeonWrt.Nmbm.Create
import NeonWrt.Nmbm.Load
import NeonWrt.Nmbm.Runs
import NeonWrt.Lib.Bits
import NeonWrt.Mikrotik.Lz77
import NeonWrt.Mikrotik.Format
import NeonWrt.Mikrotik.Decoding
import NeonWrt.Mikrotik.MatchCopy
import NeonWrt.Mikrotik.Decompress
import NeonWrt.Bmt.Bbt
import NeonWrt.Bmt.V2
import NeonWrt.Bmt.Backend
import NeonWrt.Bmt.Pool
import NeonWrt.Bmt.Persist
import NeonWrt.BaseFiles.Alternatives
import NeonWrt.BaseFiles.Links
import NeonWrt.Mtd.Write
import NeonWrt.Mtd.Layout
import NeonWrt.Mtd.Stored
import NeonWrt.Bmt.Access
import NeonWrt.Bmt.Lossless
import NeonWrt.Bmt.Consistency
import NeonWrt.Mikrotik.SoftConfig
import NeonWrt.Mikrotik.Commit
import NeonWrt.Lib.Number
import NeonWrt.Luci.Cidr
import NeonWrt.Lib.BigEndian
import NeonWrt.Luci.CidrMask
import NeonWrt.Luci.CidrRange
import NeonWrt.Luci.CidrSum
import NeonWrt.Luci.CidrText
import NeonWrt.Luci.Ipv6Text
import NeonWrt.Lib.Blanks
import NeonWrt.Lib.JavaScript
import NeonWrt.Luci.Lmo
import NeonWrt.Luci.Translation
import NeonWrt.Luci.Rpc
import NeonWrt.Lib.JsObject
import NeonWrt.Luci.UciState
import NeonWrt.Luci.UciReads
import NeonWrt.Luci.UciCells
import NeonWrt.Luci.UciView
import NeonWrt.Luci.UciCopy
import NeonWrt.Lib.StableSort
import NeonWrt.Luci.UciServer
import NeonWrt.Luci.UciSave
import NeonWrt.Lib.JsNumber
import NeonWrt.Luci.Datatypes
import NeonWrt.Luci.Validation
import NeonWrt.Luci.Tuple
import NeonWrt.Luci.Compile
import NeonWrt.Lib.BinarySearch
import NeonWrt.Luci.Archive
import NeonWrt.Luci.Po2lmo
import NeonWrt.Luci.PoFile
import NeonWrt.Luci.PoCompile
import NeonWrt.Luci.PoLookup
import NeonWrt.Uline.ArgParser
import NeonWrt.Uline.Escape
import NeonWrt.Uline.ArgWords
import NeonWrt.Uline.ArgPositions
import NeonWrt.Ead.Crypt
import NeonWrt.Ead.Channel
import NeonWrt.Ead.Server
import NeonWrt.Ead.Session
import NeonWrt.Lib.Table
import NeonWrt.Netifd.Config
import NeonWrt.Netifd.Device
import NeonWrt.Netifd.Handler
import NeonWrt.Netifd.Slots
import NeonWrt.Netifd.Accounting
import NeonWrt.Netifd.Stop
import NeonWrt.Netifd.Links
import NeonWrt.Netifd.Reload
import NeonWrt.Hostapd.Config
import NeonWrt.Hostapd.Pending
import NeonWrt.Hostapd.Latest
import NeonWrt.Lib.Block
import NeonWrt.Uline.LineBuffer
import NeonWrt.Uline.Input
import NeonWrt.Uline.Bounds
import NeonWrt.Lib.Utf8
import NeonWrt.Uline.Safety
import NeonWrt.Procd.Limit
import NeonWrt.Procd.Overflow
import NeonWrt.Procd.RunLine
import NeonWrt.Procd.Boot
import NeonWrt.Procd.Release
import NeonWrt.Uci.Pass
import NeonWrt.Uci.Grammar
import NeonWrt.Hostapd.Vlist
import NeonWrt.Uci.Hostname
import NeonWrt.Hostapd.Supplicant
import NeonWrt.Hostapd.Running
import NeonWrt.Nvram.Store
import NeonWrt.Nvram.Commit
import NeonWrt.Nvram.RoundTrip
import NeonWrt.Bmt.Permutation
import NeonWrt.Lib.Halting
import NeonWrt.Mtd.JffsWalk
import NeonWrt.Mtd.Fis
import NeonWrt.Mtd.FisRemap
import NeonWrt.Uci.Timesyncd
import NeonWrt.Nmbm.Rounds
import NeonWrt.Nmbm.Termination
import NeonWrt.Bmt.Copy
import NeonWrt.Mtd.Verify
import NeonWrt.Nmbm.Recorded
import NeonWrt.Mtd.JffsLayout
import NeonWrt.Mtd.JffsFits
import NeonWrt.Nmbm.Unmap
import NeonWrt.Nmbm.Undo
import NeonWrt.Mikrotik.Dynparts
import NeonWrt.Mikrotik.Partitions
import NeonWrt.Mikrotik.Rle
import NeonWrt.Mikrotik.TagWalk
import NeonWrt.Luci.Lookup
import NeonWrt.BaseFiles.Ipcalc
import NeonWrt.BaseFiles.Caldata
import NeonWrt.BaseFiles.UciStore
import NeonWrt.BaseFiles.Group
import NeonWrt.Ead.Delivery
import NeonWrt.Ead.Message
import NeonWrt.Ead.Bounds
import NeonWrt.Ead.Checksum
import NeonWrt.Uline.Position
import NeonWrt.Uline.Window
import NeonWrt.Uline.Tracking
import NeonWrt.Hostapd.StaAuth
import NeonWrt.Kconfig.Operators
import NeonWrt.Kconfig.Text
import NeonWrt.Uline.ArgCheck
import NeonWrt.Mtdsplit.WfiScan
import NeonWrt.Mtdsplit.WfiScan
import NeonWrt.Mtdsplit.WfiSplit
import NeonWrt.Wireless.Macaddr
import NeonWrt.Hostapd.Bssid
import NeonWrt.Hostapd.BssidAssign
import NeonWrt.Mtdsplit.FitParse
import NeonWrt.Wireless.ConfigInit
import NeonWrt.Wireless.ConfigIfaces
import NeonWrt.Wireless.ConfigAttach
import NeonWrt.Wireless.ConfigSound
