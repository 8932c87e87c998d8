import LibCanokey.BigEndian
import LibCanokey.CheckedCursor
import LibCanokey.KeyedSorting
import LibCanokey.ListTraversal
import LibCanokey.ScriptedRuns
import LibCanokey.ProtocolError
import LibCanokey.ProtocolApdu
import LibCanokey.ProtocolApduDecoder
import LibCanokey.ProtocolConversation
import LibCanokey.ProtocolSegmentation
import LibCanokey.ProtocolChannel
import LibCanokey.ProtocolExposure
import LibCanokey.ProtocolOperation
import LibCanokey.ProtocolReassembly
import LibCanokey.ProtocolTlv
import LibCanokey.ProtocolTlvRoundTrip
import LibCanokey.CtapCbor
import LibCanokey.CtapCborLanguage
import LibCanokey.CtapCborEncoder
import LibCanokey.CtapCborParser
import LibCanokey.CtapCborCanonical
import LibCanokey.ByteFile
import LibCanokey.CompatProfile
import LibCanokey.ProtocolTlvFields
import LibCanokey.KeyPublicKey
import LibCanokey.NdefMessage
import LibCanokey.ProtocolTranscript
import LibCanokey.NdefCrashConsistency
import LibCanokey.NdefRanges
import LibCanokey.ProtocolSession
import LibCanokey.NdefCard
import LibCanokey.NdefRoundTrip
import LibCanokey.PivCommand
import LibCanokey.PivManagement
import LibCanokey.PivAccess
import LibCanokey.PivManagementAuthentication
import LibCanokey.PivAccessOrdering
import LibCanokey.PivMetadata
import LibCanokey.PivProtection
import LibCanokey.PivPinManaged
import LibCanokey.PivPinManagedSafety
import LibCanokey.CtapValue
import LibCanokey.CtapCose
import LibCanokey.CtapMessage
import LibCanokey.CtapFields
import LibCanokey.CtapSubcommand
import LibCanokey.CtapConfig
import LibCanokey.CtapCredentialManagement
import LibCanokey.CtapLargeBlob
import LibCanokey.CtapReading
import LibCanokey.CtapLargeBlobFirmware
import LibCanokey.ProtocolDelivery
import LibCanokey.CtapLargeBlobUpload
import LibCanokey.ProtocolAcceptance
import LibCanokey.CtapLargeBlobRoundTrip
import LibCanokey.CtapMacCoverage
import LibCanokey.PivWrite
import LibCanokey.PivConfiguration
import LibCanokey.PivDirectory
import LibCanokey.PivObjects
import LibCanokey.PivKeys
import LibCanokey.PivPrivate
import LibCanokey.PivStreaming
import LibCanokey.PivSm2Agreement
import LibCanokey.PivBatch
import LibCanokey.PivBatchAdmission
import LibCanokey.PivBatchExecution
import LibCanokey.PivBatchGates
import LibCanokey.CompatObservations
import LibCanokey.CompatAlgorithms
import LibCanokey.CompatRecognition
import LibCanokey.PivObjectStore
import LibCanokey.PivKeyRotation
import LibCanokey.AdminTypes
import LibCanokey.AdminExecute
import LibCanokey.ProtocolStages
import LibCanokey.SparseUpdates
import LibCanokey.AdminPatch
import LibCanokey.ProtocolCompletion
import LibCanokey.AdminConfigure
import LibCanokey.CtapAuthData
import LibCanokey.CtapCborWritten
import LibCanokey.CtapHmacSecret
import LibCanokey.CtapCredential
import LibCanokey.CtapRequestCanonical
import LibCanokey.OathTypes
import LibCanokey.OathExecute
import LibCanokey.OathAccessSafety
import LibCanokey.OpenPgpTypes
import LibCanokey.OpenPgpKeys
import LibCanokey.OpenPgpExecute
import LibCanokey.OpenPgpOrdering
import LibCanokey.PivCredentials
import LibCanokey.PivObjectRoundTrip
import LibCanokey.FallibleResults
import LibCanokey.UnknownFirmware
import LibCanokey.ProtocolPreflight
import LibCanokey.PivPreflight
import LibCanokey.PivFactories
import LibCanokey.BitNumerals
import LibCanokey.CtapEnumeration
import LibCanokey.CtapHmacOutput
import LibCanokey.SettlingRuns
import LibCanokey.CtapLargeBlobBudget
import LibCanokey.CtapLargeBlobReading
import LibCanokey.CtapPrivateKeys
import LibCanokey.DerIntegers
import LibCanokey.NdefPreflight
import LibCanokey.PivDigest
import LibCanokey.ProtocolDialogue
import LibCanokey.PivPukBlocking
import LibCanokey.PivSignatures
import LibCanokey.ProtocolFraming
import LibCanokey.PivStreamingFrames
import LibCanokey.AdminLayouts
import LibCanokey.PivAlgorithmIds
import LibCanokey.ProtocolTlvBer
import LibCanokey.PivProtectionSchema
import LibCanokey.CtapCoseRoundTrip
import LibCanokey.OathPutDecoding
import LibCanokey.BerWalking
import LibCanokey.KeyImportDecoding
import LibCanokey.PivSm2Safety
import LibCanokey.AdminOutcome
import LibCanokey.DeviceProbe
import LibCanokey.ProbeSerial
import LibCanokey.OathListing
import LibCanokey.OathPages
import LibCanokey.PivContainerNames
import LibCanokey.PivDirectoryListing
import LibCanokey.CtapU2f
import LibCanokey.PivRandom
import LibCanokey.PivCertificateContainers
import LibCanokey.PivMetadataDecoding
import LibCanokey.KeySubjectPublicKey
import LibCanokey.KeyPublicKeyFields
import LibCanokey.OpenPgpData
import LibCanokey.OpenPgpFraming
import LibCanokey.CtapEnvelope
import LibCanokey.CtapPinHistory
import LibCanokey.CtapU2fOperations
import LibCanokey.BindingHost
import LibCanokey.CrashStores
import LibCanokey.ProtocolInterruption
import LibCanokey.NdefHistory
import LibCanokey.PivHistory
import LibCanokey.CtapLargeBlobHistory
import LibCanokey.CtapInfo
import LibCanokey.CtapHmacExchange
import LibCanokey.CtapCredentialEntries
