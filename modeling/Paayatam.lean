import Paayatam.Lib.Tx
import Paayatam.Lib.Table
import Paayatam.Lib.Respects
import Paayatam.Lib.System
import Paayatam.Lib.Threads
import Paayatam.Lib.Chain
import Paayatam.Types
import Paayatam.Db
import Paayatam.Env
import Paayatam.Economy.Coins
import Paayatam.Economy.CoinTransactions
import Paayatam.Economy.CoinLedger
import Paayatam.Economy.Trust
import Paayatam.Economy.Penalty
import Paayatam.Economy.Postings
import Paayatam.Participation.Service
import Paayatam.Events.Service
import Paayatam.Events.Lifecycle
import Paayatam.Events.NoShowClaim
import Paayatam.Events.HostReward
import Paayatam.Moderation.EventReview
import Paayatam.Booking.Change
import Paayatam.Booking.Operations
import Paayatam.Booking.EventOperations
import Paayatam.Booking.ClaimOperations
import Paayatam.Booking.World
import Paayatam.Booking.Frame
import Paayatam.Booking.Grounded
import Paayatam.Booking.Seats
import Paayatam.Booking.Deposit
import Paayatam.Booking.Seated
import Paayatam.Booking.Promotion
import Paayatam.Booking.PromotionOrder
import Paayatam.Booking.JoinPreview
import Paayatam.Booking.HostCancellationPreview
import Paayatam.Booking.Queue
import Paayatam.Booking.StatusInterleaving
import Paayatam.Outbox.Fanout
import Paayatam.Outbox.Relay
import Paayatam.Outbox.Records
import Paayatam.Outbox.Delivery
import Paayatam.Booking.HostSettlement
import Paayatam.Booking.Overturning
import Paayatam.Booking.Postings
import Paayatam.Booking.MarkedAbsence
import Paayatam.Booking.HostRefund
import Paayatam.Economy.Funds
import Paayatam.Booking.UpheldAbsence
import Paayatam.Moderation.Normalizer
import Paayatam.Moderation.NormalWords
import Paayatam.Moderation.NormalRuns
import Paayatam.Moderation.NormalForm
import Paayatam.Moderation.Blacklist
import Paayatam.Moderation.Evasions
import Paayatam.Moderation.CaseDecision
import Paayatam.Booking.Footprint
import Paayatam.Booking.CasesRetained
import Paayatam.Booking.CaseSettlement
import Paayatam.Booking.CaseInterleaving
import Paayatam.Reviews.Service
import Paayatam.Reviews.Reveal
import Paayatam.Reviews.Blind
import Paayatam.Reviews.Interleaving
import Paayatam.Reviews.BlindRuns
import Paayatam.Booking.EventCreation
import Paayatam.Booking.EventEdits
import Paayatam.Booking.Screening
import Paayatam.Booking.EditConflicts
import Paayatam.Booking.EventQuota
import Paayatam.Booking.Deadlines
import Paayatam.Reviews.Windows
import Paayatam.Booking.Reminders
import Paayatam.Lib.Within
import Paayatam.Economy.GiftCodes
import Paayatam.Economy.GiftRuns
import Paayatam.Lib.Rolling
import Paayatam.Economy.Referral
import Paayatam.Booking.EarningCaps
import Paayatam.Economy.ReferralRuns
import Paayatam.Channel.Service
import Paayatam.Channel.Posts
import Paayatam.Channel.Sequences
import Paayatam.Channel.SequenceRuns
import Paayatam.Channel.Publishing
import Paayatam.Moderation.Reports
import Paayatam.Moderation.ReportRuns
import Paayatam.Moderation.ReportThreshold
import Paayatam.Identity.InitData
import Paayatam.Api.Idempotency
import Paayatam.Outbox.Sending
import Paayatam.Economy.Founding
import Paayatam.Conversation.Wizard
import Paayatam.Conversation.Wizards
import Paayatam.Conversation.Updates
import Paayatam.Conversation.Submission
import Paayatam.Messaging.Announcements
import Paayatam.Invitations.Service
import Paayatam.Messaging.Delivery
import Paayatam.Lib.Journal
import Paayatam.Economy.TrustTransactions
import Paayatam.Economy.TrustLedger
import Paayatam.Conversation.Fields
import Paayatam.Conversation.Completeness
import Paayatam.Economy.LockOrder
import Paayatam.Economy.ReferralDecisions
import Paayatam.Identity.AdminLogin
import Paayatam.Messaging.Direct
import Paayatam.Messaging.BroadcastMarkup
import Paayatam.Identity.Session
import Paayatam.Identity.Totp
import Paayatam.Media.Upload
import Paayatam.Policy.Versions
import Paayatam.Policy.Consent
import Paayatam.Identity.Completion
import Paayatam.Identity.ProfileEdits
import Paayatam.Lib.Fields
import Paayatam.Telegram.Callbacks
import Paayatam.Telegram.LightMarkup
import Paayatam.Telegram.PolicyPages
import Paayatam.LocalTime
import Paayatam.Telegram.Jalali
import Paayatam.Telegram.Calendar
import Paayatam.Lib.Keyset
import Paayatam.Discovery.Search
import Paayatam.Discovery.Pagination
import Paayatam.Discovery.SearchFold
import Paayatam.Privacy.Anonymization
import Paayatam.Privacy.RetentionRuns
import Paayatam.Privacy.InboundText
import Paayatam.Logging.RedactResult
import Paayatam.Api.RateLimit
import Paayatam.Telegram.DeepLink
