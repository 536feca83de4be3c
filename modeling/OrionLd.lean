import OrionLd.QFilterSoundness
import OrionLd.QTreeToBson
import OrionLd.PostEntityKept
import OrionLd.PostEntityOrder
import OrionLd.PatchEntityKept
import OrionLd.OrionldTenant
import OrionLd.ServiceRouting
import OrionLd.ContextStrings
import OrionLd.PatchAttributePartial
import OrionLd.PatchRegistrationKept
import OrionLd.AlarmManager
import OrionLd.MqttConnections
import OrionLd.TenantNames
import OrionLd.PayloadSpecialFields
import OrionLd.SubscriptionRoundTrip
import OrionLd.ContextCacheThreads
import OrionLd.OrionldPrefixCache
import OrionLd.BatchResults
import OrionLd.PostBatchUpdate
import OrionLd.AppendStrict
import OrionLd.MongoSubCache
import OrionLd.UpdateAllOrNothing
import OrionLd.NotifyStored
import OrionLd.MetadataFiltersAgree
import OrionLd.ContextCacheDelete
import OrionLd.SubCacheList
import OrionLd.PgConnectionPool
import OrionLd.SubCacheTimes
import OrionLd.MergedInstances
import OrionLd.OrionldContextHashTablesFill
import OrionLd.TemporalWritten
import OrionLd.DatasetInstancePatch
import OrionLd.ForcedStrings
import OrionLd.GeoJsonCoordinates
import OrionLd.GeoQMemberOrder
import OrionLd.GeoTextFaithful
import OrionLd.PgAppend
import OrionLd.PostBatchDelete
import OrionLd.MergedMetadata
import OrionLd.RetrievedInstances
import OrionLd.TransactionId
import OrionLd.String2coords
import OrionLd.Parse8601
import OrionLd.ParseUrl
import OrionLd.ScopeFill
import OrionLd.CompoundValueConverted
import OrionLd.OrionldContextCacheGet
import OrionLd.OrionldContextFromUrl
import OrionLd.CompoundValueStored
import OrionLd.RegistrationInfoExtract
import OrionLd.ForwardedAnswers
import OrionLd.NumberToDate
import OrionLd.MqttParse
import OrionLd.LocationAtAppend
import OrionLd.MacroSubstitute
import OrionLd.GeojsonView
import OrionLd.JsonHelper
import OrionLd.MetricsManager
import OrionLd.EntityInfoArrayFilter
import OrionLd.KjEntityArrayErrorPurge
import OrionLd.KjStringArraySortedInsert
import OrionLd.PcheckUri
import OrionLd.StrSplit
import OrionLd.UrlParse
import OrionLd.Urldecode
import OrionLd.MongoConnectionPool
import OrionLd.SyncQOverflow
