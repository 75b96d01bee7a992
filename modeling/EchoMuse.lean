import EchoMuse.Bytes
import EchoMuse.Ema.Codec
import EchoMuse.Ema.Firmware
import EchoMuse.Ema.Agreement
import EchoMuse.Ema.Interop
import EchoMuse.Chains
import EchoMuse.Streams.Order
import EchoMuse.Intervals
import EchoMuse.Uplink.Buffer
import EchoMuse.Uplink.Window
import EchoMuse.Uplink.Refinement
import EchoMuse.Uplink.Ring
import EchoMuse.Uplink.Reads
import EchoMuse.Uplink.Delivery
import EchoMuse.Uplink.Session
import EchoMuse.Uplink.Operations
import EchoMuse.Uplink.Moves
import EchoMuse.Uplink.Steps
import EchoMuse.Uplink.Changes
import EchoMuse.Uplink.Runs
import EchoMuse.Uplink.Feeds
import EchoMuse.Uplink.Privacy
import EchoMuse.Alerts.Promise
import EchoMuse.Alerts.Snapshots
import EchoMuse.Alerts.Recovery
import EchoMuse.Turn.Orders
import EchoMuse.Alerts.Texts
import EchoMuse.Voice.Arbiter
import EchoMuse.Alerts.Positions
import EchoMuse.Playback.Reconciliation
import EchoMuse.Focus.Runs
import EchoMuse.Playback.Integrity
import EchoMuse.Alarms.Runs
import EchoMuse.Alarms.Schedule
import EchoMuse.Batches
import EchoMuse.Alerts.Deltas
import EchoMuse.Wake.Core
import EchoMuse.Wake.History
import EchoMuse.Wake.Candidates
import EchoMuse.Wake.Episodes
import EchoMuse.Wake.Queue
import EchoMuse.Wake.Windows
import EchoMuse.Wake.Scoring
import EchoMuse.Wake.Shadow
import EchoMuse.Wake.Ledger
import EchoMuse.Wake.Spacing
import EchoMuse.Wake.Fates
import EchoMuse.Wake.Accounts
import EchoMuse.Wake.Stretches
import EchoMuse.Wake.Interleavings
import EchoMuse.Satellite.Actor
import EchoMuse.Satellite.Lanes
import EchoMuse.Satellite.Changes
import EchoMuse.Satellite.Attribution
import EchoMuse.Recorder.Format
import EchoMuse.Recorder.Record
import EchoMuse.Calls
import EchoMuse.Streams.InPlace
import EchoMuse.Streams.Memory
import EchoMuse.Gregorian
import EchoMuse.Alarms.Days
import EchoMuse.Fields
import EchoMuse.Grammar.Numerals
import EchoMuse.Grammar.Numbers
import EchoMuse.Grammar.Normalize
import EchoMuse.Grammar.Spelling
import EchoMuse.Grammar.Idempotence
import EchoMuse.Grammar.Stable
import EchoMuse.Narrowing
import EchoMuse.Grammar.Timers
import EchoMuse.Grammar.Cancels
import EchoMuse.Turn.Cells
import EchoMuse.Turn.Counting
import EchoMuse.Uplink.Postings
import EchoMuse.Uplink.Accounting
import EchoMuse.Histories.Window
import EchoMuse.Focus.Expiry
import EchoMuse.Chunks
import EchoMuse.Varints
import EchoMuse.Esphome.Frame
import EchoMuse.Esphome.Framing
import EchoMuse.Queries
import EchoMuse.Recorder.Redact
import EchoMuse.Recorder.Redaction
import EchoMuse.Recorder.Bodies
import EchoMuse.Blocks
import EchoMuse.Cells.Accumulator
import EchoMuse.Cells.Records
import EchoMuse.Edits
import EchoMuse.Correction.Sounds
import EchoMuse.Correction.Search
import EchoMuse.Correction.Finding
