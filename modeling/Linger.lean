import Linger.StepMachine
import Linger.FiniteMap
import Linger.Brackets
import Linger.LogSlice
import Linger.KeyedStream
import Linger.Wire
import Linger.Gateway
import Linger.GatewayPresence
import Linger.GatewayMerge
import Linger.GatewayCalls
import Linger.GatewayAccount
import Linger.GatewayTelling
import Linger.GatewayEffect
import Linger.GatewayNotLost
import Linger.GatewayBrackets
import Linger.SessionReplay
import Linger.SessionTask
import Linger.SessionResume
import Linger.DmStore
import Linger.DmAudience
import Linger.DmPrivacy
import Linger.GatewayRecord
import Linger.PresenceApp
import Linger.PresenceRecord
import Linger.PresenceAgreement
import Linger.ScreensBoard
import Linger.ScreensSettle
import Linger.ScreensAlike
import Linger.ScreensOrder
import Linger.ScreensInvariant
import Linger.ScreensShowing
import Linger.ScreensFrames
import Linger.ScreensPlaces
import Linger.ScreenSocket
import Linger.VoiceSeats
import Linger.SfuClient
import Linger.SfuHub
import Linger.SfuConverge
import Linger.SfuBits
import Linger.SfuAnswers
import Linger.TaskPool
import Linger.MessageLinks
import Linger.MessageRow
import Linger.MessageTombstone
import Linger.MessageTelling
import Linger.Posts
import Linger.PostsWriter
import Linger.PostsOrder
import Linger.PostsOnce
import Linger.PostsWhole
import Linger.Stretch
import Linger.History
import Linger.HistoryLists
import Linger.HistoryFits
import Linger.HistoryFlights
import Linger.HistoryFolds
import Linger.HistoryWhole
import Linger.HistoryKeeps
import Linger.HistoryTells
import Linger.HistoryAgrees
import Linger.SignIns
import Linger.SignInFamilies
import Linger.SignInEnding
import Linger.Grants
import Linger.GrantsOnce
import Linger.Uploads
import Linger.UploadsSettle
import Linger.UploadsDue
import Linger.UploadsKept
import Linger.KeysetPages
import Linger.Media
import Linger.MediaPages
import Linger.MediaWalk
import Linger.MediaWhole
import Linger.Polls
import Linger.PollsResult
import Linger.PollsFinal
import Linger.OnceList
import Linger.Changes
import Linger.ChangesView
import Linger.ChangesSettle
import Linger.ChangesSteps
import Linger.ChangesQuiet
import Linger.UploadFile
import Linger.CoreGateway
import Linger.CoreGatewaySequence
import Linger.CoreGatewayReplay
import Linger.CoreGatewayVoice
import Linger.Names
import Linger.Accounts
import Linger.AccountRequests
import Linger.NamesApart
import Linger.AccountsDeleted
import Linger.Exports
import Linger.ExportsKept
import Linger.Sends
import Linger.SendsShown
import Linger.CheckedText
import Linger.Markup
import Linger.ArchiveBody
import Linger.ArchiveBodyInline
import Linger.ArchiveBodyBlocks
import Linger.ArchiveMarkup
import Linger.AppMarkdown
import Linger.ReadAlike
import Linger.TokenBucket
import Linger.RateLimits
import Linger.RateLimitsLevels
import Linger.RateLimitsRuns
import Linger.VoiceRestarts
import Linger.VoiceRestartsRules
import Linger.UploadsPool
import Linger.SoundEvents
import Linger.SoundEventsMinute
import Linger.Crossfade
import Linger.VoiceLane
import Linger.VoiceLaneGaps
import Linger.VoiceLaneFades
import Linger.ScreenShare
import Linger.ScreenShareDecodes
import Linger.ScreenShareRuns
import Linger.VoiceEngine
import Linger.VoiceEngineLeft
import Linger.ScreenWatch
import Linger.ScreenWatchOne
import Linger.ScreenWatchSteps
import Linger.ScreenWatchPress
import Linger.VoiceFrames
import Linger.VoiceRates
import Linger.AudioWorker
import Linger.SignInLimits
import Linger.ShareSignIns
import Linger.ScreenSound
import Linger.Ebml
import Linger.VoiceFile
import Linger.UploadParts
import Linger.SpanPartners
import Linger.KeepLast
import Linger.BackupBucket
import Linger.FileRange
import Linger.ArchiveNames
import Linger.PageHead
import Linger.PublicLinks
import Linger.UploadsLeaving
import Linger.FileDrafts
import Linger.ImageBudget
import Linger.StatusFields
import Linger.Trimming
import Linger.FileNames
import Linger.Floor
import Linger.KeyedLists
import Linger.SfuFloors
import Linger.Patterns
import Linger.LinkHost
import Linger.LinkHostAlike
import Linger.SideTabs
import Linger.VoiceLaneRuns
import Linger.SecretsKept
import Linger.SearchPages
