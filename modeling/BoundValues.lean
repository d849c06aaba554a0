import BoundValues.Container.Action
import BoundValues.Container.Basic
import BoundValues.Container.Outline
import BoundValues.Container.Pass
import BoundValues.Container.Shortcut
import BoundValues.Control.BindingError
import BoundValues.Control.Capability
import BoundValues.Control.Drawing
import BoundValues.Datum.Basic
import BoundValues.Datum.Bindable
import BoundValues.Datum.DataType
import BoundValues.Datum.Frame
import BoundValues.Datum.IntegerType
import BoundValues.Datum.Listing
import BoundValues.Datum.Rule
import BoundValues.Decimal.Binary
import BoundValues.Decimal.Pattern
import BoundValues.Decimal.Places
import BoundValues.Decimal.Reading
import BoundValues.Decimal.Rounding
import BoundValues.Decimal.Shortest
import BoundValues.Kind.Config
import BoundValues.Kind.Full
import BoundValues.Kind.Monitored
import BoundValues.Kind.Plain
import BoundValues.Member.Body
import BoundValues.Member.Call
import BoundValues.Member.Edit
import BoundValues.Member.Kind
import BoundValues.Member.Preset
import BoundValues.Member.Reply
import BoundValues.Member.Setting
import BoundValues.Part.Cell
import BoundValues.Part.Display
import BoundValues.Part.History
import BoundValues.Part.Host
import BoundValues.Part.Link
import BoundValues.Part.Signal
import BoundValues.Part.Sockets
import BoundValues.Part.Staging
import BoundValues.Part.Step
import BoundValues.Part.Tether
import BoundValues.Part.Validation
import BoundValues.Switchboard.Basic
import BoundValues.Switchboard.Run
import BoundValues.Template.Conversion
import BoundValues.Template.Directive
import BoundValues.Template.Render
import BoundValues.Template.Scanner
import BoundValues.Text.Blank
import BoundValues.Text.Buffer
import BoundValues.Text.Numeral
import BoundValues.Text.Printable
import BoundValues.Text.Quoted
import BoundValues.Text.Record
import BoundValues.World.Basic
import BoundValues.World.Command
import BoundValues.World.Create
import BoundValues.World.Handle
import BoundValues.World.Run
import BoundValues.Proofs.Course
import BoundValues.Proofs.Views
import BoundValues.Proofs.Agreement
import BoundValues.Proofs.HistoryCursor
import BoundValues.Proofs.Admission
import BoundValues.Proofs.Notification
import BoundValues.Proofs.Provenance
import BoundValues.Proofs.Quiet
import BoundValues.Proofs.Calm
import BoundValues.Proofs.BulkApply
import BoundValues.Proofs.Workflow
import BoundValues.Proofs.Registry
import BoundValues.Proofs.OrderedMap
import BoundValues.Proofs.Passes
import BoundValues.Proofs.Marks
import BoundValues.Proofs.Reporting
import BoundValues.Proofs.Immediacy
import BoundValues.Proofs.Pulling
import BoundValues.Proofs.LateMarks
import BoundValues.Proofs.Tame
import BoundValues.Proofs.Drafting
import BoundValues.Proofs.Immunity
import BoundValues.Proofs.Leftovers
import BoundValues.Proofs.LastCall
import BoundValues.Proofs.Emission
import BoundValues.Proofs.Ownership
import BoundValues.Proofs.Reading
import BoundValues.Proofs.Syncing
import BoundValues.Proofs.Confinement
import BoundValues.Proofs.Rounds
import BoundValues.Proofs.Independence
import BoundValues.Proofs.Connections
import BoundValues.Proofs.UndoList
import BoundValues.Proofs.Tagging
import BoundValues.Proofs.ChangeFlag
import BoundValues.Proofs.Validity
import BoundValues.Proofs.Rendering
import BoundValues.Proofs.Numerals
import BoundValues.Proofs.Unfolding
import BoundValues.Proofs.Attribution
import BoundValues.Proofs.Clipping
import BoundValues.Proofs.Listings
import BoundValues.Proofs.Reloading
import BoundValues.Proofs.SettingUp
import BoundValues.Proofs.Ratios
import BoundValues.Proofs.Literals
import BoundValues.Proofs.Stripping
import BoundValues.Proofs.LeadingDigits
