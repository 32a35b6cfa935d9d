import MotaTool.Base.Overlay
import MotaTool.Encode.Longest
import MotaTool.Encode.Unchanged
import MotaTool.Bootloader.Identity
import MotaTool.Bootloader.IdentitySpec
import MotaTool.Bootloader.PackageSpec
import MotaTool.Bootloader.BoardSpec
import MotaTool.Bootloader.Contents
import MotaTool.Build.Geometry
import MotaTool.Build.SizingSpec
import MotaTool.Build.IdentSpec
import MotaTool.Build.NameSpec
import MotaTool.EndfSpec
import MotaTool.Bootloader.Region
import MotaTool.Input
import MotaTool.Profile
import MotaTool.Merkle
import MotaTool.Encode.InPlaceSpec
import MotaTool.Encode.VarintWords
import MotaTool.Encode.CrleSpec
import MotaTool.Encode.ScanSpec
import MotaTool.Build.PlanSpec
import MotaTool.Serve.Demux
import MotaTool.Serve.Conserve
import MotaTool.Serve.Resync
import MotaTool.Serve.Rescan
import MotaTool.Serve.Replies
import MotaTool.Serve.Delivered
import MotaTool.Cli.Authentic
import MotaTool.Cli.Inspect
import MotaTool.Serve.Prepare
import MotaTool.Serve.Dispatch
import MotaTool.Serve.Transport
