import ForgeCI.FinalizeRace
import ForgeCI.LeaseRace
import ForgeCI.Supersession
import ForgeCI.Agreement
import ForgeCI.ArtifactGC
import ForgeCI.Downloads
import ForgeCI.Admission
import ForgeCI.LeaseRoutes
import ForgeCI.FollowLogs
import ForgeCI.SupersededWork
import ForgeCI.DeliveryRetries
import ForgeCI.WebhookRace
import ForgeCI.CheckWorker
import ForgeCI.Startup
import ForgeCI.LogStore
import ForgeCI.LogWaits
import ForgeCI.LogWriter
import ForgeCI.CacheBudget
import ForgeCI.CacheKeys
import ForgeCI.LogRetries
import ForgeCI.LogAccounts
import ForgeCI.LogFencing
import ForgeCI.Interruption
import ForgeCI.LinkSafety
import ForgeCI.ArtifactRoundTrip
import ForgeCI.BlockedClosure
import ForgeCI.DeliveryAttempts
import ForgeCI.ExtractionBounds
import ForgeCI.TokenFlights
