import DouyinCaption.Administrators
import DouyinCaption.Alone
import DouyinCaption.Analyses
import DouyinCaption.Attempts
import DouyinCaption.Backed
import DouyinCaption.Completion
import DouyinCaption.Confinement
import DouyinCaption.ConnectionTest
import DouyinCaption.Domain
import DouyinCaption.DurableAiQueue
import DouyinCaption.Envelope
import DouyinCaption.Fifo
import DouyinCaption.Finals
import DouyinCaption.Frozen
import DouyinCaption.Invariants
import DouyinCaption.Isolation
import DouyinCaption.Library.Ancestry
import DouyinCaption.Library.Cells
import DouyinCaption.Library.IpAddress
import DouyinCaption.Library.JsValues
import DouyinCaption.Library.Json
import DouyinCaption.Library.JsonReader
import DouyinCaption.Library.Lease
import DouyinCaption.Library.Machines
import DouyinCaption.Library.Markers
import DouyinCaption.Library.Occurrences
import DouyinCaption.Library.PythonValues
import DouyinCaption.Library.Runs
import DouyinCaption.Library.Tables
import DouyinCaption.Library.Urls
import DouyinCaption.Library.Utf16
import DouyinCaption.Library.Validation
import DouyinCaption.Library.Views
import DouyinCaption.Library.Windows
import DouyinCaption.Lifecycle
import DouyinCaption.Located
import DouyinCaption.LockedText
import DouyinCaption.Locks
import DouyinCaption.MemberLock
import DouyinCaption.MemberModelNames
import DouyinCaption.Noninterference
import DouyinCaption.Orderly
import DouyinCaption.OrderlyRuns
import DouyinCaption.Owners
import DouyinCaption.Payloads
import DouyinCaption.ProviderAnswers
import DouyinCaption.ProviderCalls
import DouyinCaption.ProviderUrl
import DouyinCaption.QueueStore
import DouyinCaption.RateLimit
import DouyinCaption.Requests
import DouyinCaption.Rounds
import DouyinCaption.SentenceView
import DouyinCaption.Sentences
import DouyinCaption.SettingsTrip
import DouyinCaption.Snapshot
import DouyinCaption.StoredLocks
import DouyinCaption.StoredWork
import DouyinCaption.Submission
import DouyinCaption.TaskDrafts
import DouyinCaption.TaskFlow
import DouyinCaption.TaskStates
import DouyinCaption.TaskStore
import DouyinCaption.TaskViews
import DouyinCaption.Traceable
import DouyinCaption.Validation
import DouyinCaption.VersionTree
import DouyinCaption.Workbench
