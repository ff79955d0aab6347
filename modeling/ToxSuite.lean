import ToxSuite.Lib.Runs
import ToxSuite.Lists
import ToxSuite.Lib.Polling
import ToxSuite.Ylog
import ToxSuite.Lib.Ledger
import ToxSuite.Lib.Keyed
import ToxSuite.Bencode.Decode
import ToxSuite.Friend.Contacts
import ToxSuite.File.Lookup
import ToxSuite.File.Savefile
import ToxSuite.File.Owner
import ToxSuite.File.Restart
import ToxSuite.File.Receive
import ToxSuite.File.Shared
import ToxSuite.File.Slots
import ToxSuite.File.Survives
import ToxSuite.File.Shapes
import ToxSuite.File.Bounds
import ToxSuite.File.Blocks
import ToxSuite.File.Canonical
import ToxSuite.File.Written
import ToxSuite.File.Saving
import ToxSuite.File.Resume
import ToxSuite.File.Addressed
import ToxSuite.File.Packlist
import ToxSuite.Friend.Keys
import ToxSuite.Friend.Import
import ToxSuite.Friend.Ring
import ToxSuite.Share.Converge
import ToxSuite.Share.Checksum
import ToxSuite.Share.Names
import ToxSuite.Share.Requests
import ToxSuite.Share.Visible
import ToxSuite.Share.Buffers
import ToxSuite.Profile
import ToxSuite.Toxdatatool
import ToxSuite.Conf
import ToxSuite.Suit.Pending
import ToxSuite.Suit.Sleep
import ToxSuite.Suit.Service
import ToxSuite.Suit.Program
import ToxSuite.Call.Blocks
import ToxSuite.Call.Acts
import ToxSuite.Call.Echo
import ToxSuite.Call.Ends
import ToxSuite.Call.Sorted
import ToxSuite.Call.Heard
import ToxSuite.Call.Ready
import ToxSuite.Call.Playback
import ToxSuite.Command.Argexp
import ToxSuite.Command.Args
import ToxSuite.Command.Xdcc
import ToxSuite.Command.Packs
import ToxSuite.Command.Stream
