import RulesMkosi.Lib.AbsPath
import RulesMkosi.Lib.Base128
import RulesMkosi.Lib.Extent
import RulesMkosi.Lib.Fips180
import RulesMkosi.Lib.Search
import RulesMkosi.BootInterleaving
import RulesMkosi.BootReadiness
import RulesMkosi.DebianClearsign
import RulesMkosi.DebianControlText
import RulesMkosi.DebianIndex
import RulesMkosi.DebianLauncher
import RulesMkosi.DebianLock
import RulesMkosi.DebianPipeline
import RulesMkosi.DebianRelations
import RulesMkosi.DebianRelease
import RulesMkosi.DebianReorder
import RulesMkosi.DebianResolve
import RulesMkosi.DebianSnapshot
import RulesMkosi.DebianSnapshotRepo
import RulesMkosi.DebianSpecDigest
import RulesMkosi.DebianSpecification
import RulesMkosi.EfiAuth
import RulesMkosi.EspDirectory
import RulesMkosi.EspExtent
import RulesMkosi.EspFiles
import RulesMkosi.EspListing
import RulesMkosi.EspSafety
import RulesMkosi.EspVolume
import RulesMkosi.EspWalk
import RulesMkosi.ExtractCycles
import RulesMkosi.ExtractHardlinks
import RulesMkosi.ExtractMergedUsr
import RulesMkosi.MkosiOptions
import RulesMkosi.MkosiRewrite
import RulesMkosi.NamespaceRunner
import RulesMkosi.OpenPgp
import RulesMkosi.PackageArchive
import RulesMkosi.PartitionCanonical
import RulesMkosi.PartitionLayout
import RulesMkosi.SecureBootAttach
import RulesMkosi.SecureBootDer
import RulesMkosi.SecureBootErrors
import RulesMkosi.SecureBootHash
import RulesMkosi.SecureBootOid
import RulesMkosi.Sha256
import RulesMkosi.SignImage
import RulesMkosi.StageLayout
import RulesMkosi.StageMerge
import RulesMkosi.SysupdatePayload
import RulesMkosi.VerityGeometry
import RulesMkosi.VerityTree
import RulesMkosi.DebianStaging
import RulesMkosi.IdentityHandshake
import RulesMkosi.KernelPreflight
import RulesMkosi.LauncherScratch
import RulesMkosi.Lib.Effects
import RulesMkosi.NamespaceInit
