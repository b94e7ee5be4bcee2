import MessageBridge.Amazon.Basic
import MessageBridge.Amazon.Service
import MessageBridge.Bridge.Basic
import MessageBridge.Bridge.Definition
import MessageBridge.Bridge.Files
import MessageBridge.Bridge.Validation
import MessageBridge.Brokers
import MessageBridge.Calendar
import MessageBridge.Decimal.Binary64
import MessageBridge.Decimal.Shortest
import MessageBridge.Decimal.Word
import MessageBridge.Duration
import MessageBridge.Entries
import MessageBridge.Envelope
import MessageBridge.Failure
import MessageBridge.Folder
import MessageBridge.Forward.Consumer
import MessageBridge.Forward.Consuming
import MessageBridge.Forward.Endpoint
import MessageBridge.Forward.RetryPolicy
import MessageBridge.Json.Basic
import MessageBridge.Json.Node
import MessageBridge.Json.Printer
import MessageBridge.Json.Reader
import MessageBridge.Json.Token
import MessageBridge.Json.Tree
import MessageBridge.Log
import MessageBridge.Metrics
import MessageBridge.Process.App
import MessageBridge.Process.Session
import MessageBridge.Process.Task
import MessageBridge.Process.Urgency
import MessageBridge.Process.World
import MessageBridge.Proofs.Amazon.Arrival
import MessageBridge.Proofs.Amazon.Batches
import MessageBridge.Proofs.Amazon.Contents
import MessageBridge.Proofs.Amazon.Identifiers
import MessageBridge.Proofs.Amazon.Operations
import MessageBridge.Proofs.Amazon.Outcomes
import MessageBridge.Proofs.Amazon.Publication
import MessageBridge.Proofs.Amazon.Receipts
import MessageBridge.Proofs.Amazon.Runs
import MessageBridge.Proofs.Amazon.Visibility
import MessageBridge.Proofs.Bridge.Rewriting
import MessageBridge.Proofs.Bridge.Runnable
import MessageBridge.Proofs.Bridge.Validation
import MessageBridge.Proofs.Entries
import MessageBridge.Proofs.Forward.Attempts
import MessageBridge.Proofs.Forward.Attendance
import MessageBridge.Proofs.Forward.Destination
import MessageBridge.Proofs.Forward.Endpoints
import MessageBridge.Proofs.Forward.InOrder
import MessageBridge.Proofs.Forward.Ledger
import MessageBridge.Proofs.Forward.Progress
import MessageBridge.Proofs.Forward.Provisioning
import MessageBridge.Proofs.Forward.Settlement
import MessageBridge.Proofs.Forward.Whitelisted
import MessageBridge.Proofs.History
import MessageBridge.Proofs.Json.Documents
import MessageBridge.Proofs.Json.Fields
import MessageBridge.Proofs.Json.Keys
import MessageBridge.Proofs.Json.Numbers
import MessageBridge.Proofs.Json.Reading
import MessageBridge.Proofs.Json.Tokens
import MessageBridge.Proofs.Json.Writing
import MessageBridge.Proofs.Logs
import MessageBridge.Proofs.Metrics
import MessageBridge.Proofs.OrderedTexts
import MessageBridge.Proofs.Process.Accounts
import MessageBridge.Proofs.Process.Attendants
import MessageBridge.Proofs.Process.Commands
import MessageBridge.Proofs.Process.Deeds
import MessageBridge.Proofs.Process.Lifecycle
import MessageBridge.Proofs.Process.QueuedMessages
import MessageBridge.Proofs.Process.Queueing
import MessageBridge.Proofs.Process.Quiet
import MessageBridge.Proofs.Process.Readers
import MessageBridge.Proofs.Process.Schedules
import MessageBridge.Proofs.Process.Sessions
import MessageBridge.Proofs.Process.Startup
import MessageBridge.Proofs.Process.Together
import MessageBridge.Proofs.Process.Turns
import MessageBridge.Proofs.Process.Waiting
import MessageBridge.Proofs.Rabbit.DeadLetter
import MessageBridge.Proofs.Rabbit.DeadLetterQueues
import MessageBridge.Proofs.Rabbit.Declarations
import MessageBridge.Proofs.Rabbit.Operations
import MessageBridge.Proofs.Rabbit.Order
import MessageBridge.Proofs.Rabbit.Patterns
import MessageBridge.Proofs.Rabbit.Publishing
import MessageBridge.Proofs.Rabbit.Retention
import MessageBridge.Proofs.Rabbit.Standing
import MessageBridge.Proofs.Rabbit.Streams
import MessageBridge.Proofs.Rabbit.Tags
import MessageBridge.Proofs.Rabbit.Topic
import MessageBridge.Proofs.Reverse.AtLeastOnce
import MessageBridge.Proofs.Reverse.Blocking
import MessageBridge.Proofs.Reverse.Notifications
import MessageBridge.Proofs.Reverse.Prefix
import MessageBridge.Proofs.Reverse.Receiving
import MessageBridge.Proofs.Reverse.Redelivery
import MessageBridge.Proofs.Reverse.Schedule
import MessageBridge.Proofs.Reverse.Stamping
import MessageBridge.Proofs.Settings.Layers
import MessageBridge.Proofs.Settings.Leaves
import MessageBridge.Proofs.Settings.Merging
import MessageBridge.Proofs.Settings.Names
import MessageBridge.Proofs.Spec.Filling
import MessageBridge.Proofs.Spec.Keeping
import MessageBridge.Proofs.Spec.Language
import MessageBridge.Proofs.Spec.References
import MessageBridge.Proofs.Spec.Removal
import MessageBridge.Proofs.Spec.Selection
import MessageBridge.Proofs.Spec.Writing
import MessageBridge.Proofs.Text.Pieces
import MessageBridge.Proofs.Text.Utf8
import MessageBridge.Proofs.Transform.KeyPaths
import MessageBridge.Proofs.Transform.Narrowing
import MessageBridge.Proofs.Transform.Pruning
import MessageBridge.Proofs.Transform.Secrecy
import MessageBridge.Proofs.Transform.Survival
import MessageBridge.Proofs.Traversal
import MessageBridge.Rabbit.Basic
import MessageBridge.Rabbit.Broker
import MessageBridge.Rabbit.Topic
import MessageBridge.Rabbit.Topology
import MessageBridge.Reverse.Dispatcher
import MessageBridge.Reverse.Polling
import MessageBridge.Reverse.Receiver
import MessageBridge.Settings.Basic
import MessageBridge.Settings.Load
import MessageBridge.Settings.Reading
import MessageBridge.Settings.Value
import MessageBridge.Spec.Apply
import MessageBridge.Spec.Basic
import MessageBridge.Spec.Compile
import MessageBridge.Text.Blank
import MessageBridge.Text.Pieces
import MessageBridge.Text.Utf8
import MessageBridge.Toml.Document
import MessageBridge.Toml.Scalar
import MessageBridge.Toml.Text
import MessageBridge.Transform.Chain
import MessageBridge.Transform.Whitelist
