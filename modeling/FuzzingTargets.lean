import FuzzingTargets.Connman.DnsProxy.TcpFraming
import FuzzingTargets.Libbw64.RoundTrip
import FuzzingTargets.Connman.DnsProxy.Identifiers
import FuzzingTargets.Connman.DnsProxy.WholeReply
import FuzzingTargets.Connman.DnsProxy.TcpServer
import FuzzingTargets.Connman.DnsProxy.CacheLifetime
import FuzzingTargets.Cereal.Identity
import FuzzingTargets.Cereal.GraphRoundTrip
import FuzzingTargets.Cereal.Strings
import FuzzingTargets.Cereal.Deferments
import FuzzingTargets.UBoot.HashTable.Enumeration
import FuzzingTargets.Cereal.JsonTraversal
import FuzzingTargets.UBoot.Ext4.DeviceReads
import FuzzingTargets.UBoot.Ext4.ExactReads
import FuzzingTargets.UBoot.MemoryBlocks.ExactCalls
import FuzzingTargets.UBoot.Gpt.RestoreValid
import FuzzingTargets.Connman.IpPool.PoolRuns
import FuzzingTargets.Connman.Stats.RingRuns
import FuzzingTargets.Connman.Gweb.Responses
import FuzzingTargets.Libbw64.Pcm
import FuzzingTargets.Libbw64.Cursor
import FuzzingTargets.Libbw64.ChunkLocality
import FuzzingTargets.Connman.DnsProxy.NameExpansion
import FuzzingTargets.Connman.DnsProxy.DomainQuery
import FuzzingTargets.Connman.DnsProxy.CacheReferences
import FuzzingTargets.Connman.Gdhcp.LeaseOrder
import FuzzingTargets.Connman.Gdhcp.Dhcpv6Lists
import FuzzingTargets.Connman.Gdhcp.RawFrames
import FuzzingTargets.Connman.Gdhcp.OptionBounds
