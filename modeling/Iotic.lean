import Iotic.Lib.Runs
import Iotic.Lib.SortedMap
import Iotic.Strategies.Strategy
import Iotic.Strategies.PowerManager
import Iotic.Config.ConfigRepository
import Iotic.Lib.CyclicRun
import Iotic.Strategies.MultiPhaseStrategy
import Iotic.Database.DatabaseTypes
import Iotic.Database.Downsample
import Iotic.Common.CborLibrary
import Iotic.Database.CborCoding
import Iotic.Database.Delta
import Iotic.Webapp.CborDecoder
import Iotic.Database.ArchiveCoding
import Iotic.Webapp.ArchiveArrays
import Iotic.Webapp.ArchiveChart
import Iotic.Database.Database
import Iotic.Database.ArchiveDayUseCase
import Iotic.Database.SkippedReadings
import Iotic.Rules.StrategyFactory
import Iotic.Rules.RuleEngine
import Iotic.Coap.CoapMessage
import Iotic.Coap.CoapRoundTrip
import Iotic.Lib.Timeline
import Iotic.Strategies.DailyEnergy
import Iotic.Webapp.ChartController
import Iotic.Strategies.StepOrder
import Iotic.Common.Util
import Iotic.Database.RawDays
import Iotic.Database.WriteFailure
import Iotic.Database.DayView
import Iotic.Webserver.DatabaseRoute
import Iotic.Database.DatapointWidths
import Iotic.Lib.CborFormat
import Iotic.Webserver.SiteHistory
import Iotic.Webapp.WebSocketService
import Iotic.Config.Persistence
import Iotic.Rules.ThingAdded
import Iotic.Database.Averages
import Iotic.Database.PowerReadings
import Iotic.Strategies.PhaseSteps
import Iotic.Lib.Limiter
import Iotic.Strategies.PhaseLimit
import Iotic.Strategies.WallboxStrategy
import Iotic.Strategies.WallboxRuns
import Iotic.Rules.RuleActuation
import Iotic.Coap.OptionOrder
import Iotic.Coap.OptionGrammar
import Iotic.Coap.DecodeGrammar
import Iotic.Coap.CoreLinkDocument
import Iotic.Webapp.HistoryRange
import Iotic.Lib.JsonText
import Iotic.Webserver.WebAppBehavior
import Iotic.Webapp.SiteRepository
import Iotic.Webserver.MessageHandlers
import Iotic.Things.ThingsManager
import Iotic.Lib.Bisection
import Iotic.Webapp.SiteService
import Iotic.Things.ShellyGen2Thing
import Iotic.Stats.StatsDaily
import Iotic.Rules.OffsetLookup
import Iotic.Webapp.HistoryView
import Iotic.Webapp.SiteSession
import Iotic.Webapp.SiteRuns
import Iotic.Lib.JsonStrings
import Iotic.Webserver.ThingMessages
import Iotic.Webapp.ThingService
import Iotic.Webapp.ThingRuns
import Iotic.Webapp.DayChart
import Iotic.Webapp.SiteChart
import Iotic.Rules.RuleReadings
import Iotic.Rules.UserSettings
import Iotic.Webapp.ChartSelection
import Iotic.Strategies.ManagedStrategy
import Iotic.Strategies.RelayLoop
import Iotic.AppDaemon.Listeners
import Iotic.AppDaemon.NetworkInputs
