import RouteAtlas.Main
import RouteAtlas.Proofs.OneRouter
import RouteAtlas.Proofs.MountCycles
import RouteAtlas.Proofs.GenuineRouters
import RouteAtlas.Proofs.ReExports
import RouteAtlas.Proofs.ConfigEdits
import RouteAtlas.Proofs.ResolvedPaths
import RouteAtlas.Proofs.PlainJson
import RouteAtlas.Proofs.StreamEnd
import RouteAtlas.Proofs.OpenedFiles
import RouteAtlas.Proofs.ConstantFolding
import RouteAtlas.Proofs.BasePaths
import RouteAtlas.Proofs.GenuineExports
import RouteAtlas.Proofs.EnclosingScopes
import RouteAtlas.Proofs.AsyncFunctions
import RouteAtlas.Proofs.MappedColumns
import RouteAtlas.Proofs.ResolvedFiles
import RouteAtlas.Proofs.FreeOccurrences
import RouteAtlas.Proofs.Coherence
import RouteAtlas.Proofs.PathMeaning
import RouteAtlas.Proofs.DeliveredChanges
import RouteAtlas.Proofs.Spellings
import RouteAtlas.Proofs.Columns
import RouteAtlas.Proofs.PackageNames
import RouteAtlas.Proofs.BraceForms
import RouteAtlas.Proofs.AddedRoutes
import RouteAtlas.Proofs.RememberedConfigs
import RouteAtlas.Proofs.PercentEscapes
import RouteAtlas.Proofs.MappedPlaces
import RouteAtlas.Proofs.RouterKeys
