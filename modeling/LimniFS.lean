import LimniFS.TarXattrs
import LimniFS.ChunkedExact
import LimniFS.CarExact
import LimniFS.CodecLength
import LimniFS.KeyPem
import LimniFS.PagedBounds
import LimniFS.PagedSlabSet
import LimniFS.DictionaryCost
import LimniFS.StreamingAgrees
import LimniFS.Reproducible
import LimniFS.SealedFiles
import LimniFS.FuseInodes
import LimniFS.ErasureRecovery
import LimniFS.CommitTurnover
import LimniFS.LinkCounts
import LimniFS.StreamOrder
import LimniFS.ShamirSecrecy
import LimniFS.EpochCanonical
import LimniFS.WindowBounds
import LimniFS.SharedInline
import LimniFS.FlattenChain
import LimniFS.RaceSafety
import LimniFS.PackedTree
