import Bz.Dice.Deps.Iterator
import Bz.Dice.Soundness.Rewind
import Bz.Files.MetadataCache
import Bz.Files.ExternalState
import Bz.FileWatcher.Delivery
import Bz.Configuration.Select
import Bz.Packages.FileListing
import Bz.Bzlmod.BzlDigest
import Bz.Bzlmod.GeneratedRepos
import Bz.Bzlmod.Lockfile
import Bz.Bzlmod.Archive
import Bz.Directory.Lazy
import Bz.BuckOut.Registry
import Bz.Execute.CommandLine
import Bz.Execute.SymlinkClosure
import Bz.Directory.PathOperations
import Bz.Materializer.Mirror
import Bz.Materializer.Closure
import Bz.Materializer.Ordering
import Bz.HostSharing.Guards
import Bz.Bzlmod.RepoContents
import Bz.Interpreter.PackageData
import Bz.CriticalPath.Graph
import Bz.Dice.Freshness
import Bz.Bzlmod.Hunks
