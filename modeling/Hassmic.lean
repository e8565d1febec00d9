import Hassmic.A2dp.Config
import Hassmic.A2dp.Gate
import Hassmic.A2dp.Pool
import Hassmic.Afe.Parcel
import Hassmic.Align.Viterbi
import Hassmic.Api.Gate
import Hassmic.Arb.Across
import Hassmic.Arb.Answers
import Hassmic.Arb.Heard
import Hassmic.Arb.Observed
import Hassmic.Arb.Pairing
import Hassmic.Arb.Replay
import Hassmic.Arb.Restart
import Hassmic.Artifacts.Limits
import Hassmic.Ble.Credits
import Hassmic.Ble.Framing
import Hassmic.Ble.Long
import Hassmic.Ble.Tables
import Hassmic.Bt.Route
import Hassmic.DropIn.Keys
import Hassmic.DropIn.Order
import Hassmic.DropIn.Outcome
import Hassmic.Hash.Sha256
import Hassmic.Improv.Packet
import Hassmic.Json.Accept
import Hassmic.Led.Drained
import Hassmic.Mass.Ended
import Hassmic.Mass.Token
import Hassmic.Music.Resample
import Hassmic.Mww.Features
import Hassmic.Mww.Multiplier
import Hassmic.Mww.Reread
import Hassmic.Mww.Reset
import Hassmic.Node.Name
import Hassmic.Noise.Session
import Hassmic.Ring.Applied
import Hassmic.Sendspin.Clock
import Hassmic.Sendspin.Owed
import Hassmic.Sendspin.Rekey
import Hassmic.Settings.Gate
import Hassmic.Settings.Import
import Hassmic.Tz.Exact
import Hassmic.Ui.Gestures
import Hassmic.Ui.Redraw
import Hassmic.Update.Newest
import Hassmic.Voice.Announce
import Hassmic.Voice.Cancelled
import Hassmic.Voice.Flush
import Hassmic.Voice.Wav
import Hassmic.Voice.WordTail
import Hassmic.Volume.Kept
import Hassmic.Web.Button
