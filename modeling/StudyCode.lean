import StudyCode.ArrayListSet
import StudyCode.BiTree
import StudyCode.BplusTreeDelete
import StudyCode.BplusTreeRange
import StudyCode.BplusTreeV2Lookup
import StudyCode.BrainfuckListRun
import StudyCode.BrainfuckRefines
import StudyCode.Capture
import StudyCode.CheckIp
import StudyCode.Checksum
import StudyCode.Chimera
import StudyCode.ChunxiaoListDeque
import StudyCode.CliSimple
import StudyCode.Des2Keys
import StudyCode.DesHash
import StudyCode.DisposeStringPorts
import StudyCode.DnsDecode
import StudyCode.DuffDevice
import StudyCode.EchoEvents
import StudyCode.EwxPcapSimple
import StudyCode.FieldProcessorUndo
import StudyCode.FileDhcpHost
import StudyCode.FloatTokenScan
import StudyCode.FlowMatchNumber
import StudyCode.GuanlianPcap
import StudyCode.HappyNum
import StudyCode.IsPrime
import StudyCode.KmpTest
import StudyCode.Knapsack
import StudyCode.L7Pattern
import StudyCode.Lcs01
import StudyCode.List01Query
import StudyCode.LockerPthread
import StudyCode.NextBigger
import StudyCode.MultipartStore
import StudyCode.NfaToDfa
import StudyCode.Nie
import StudyCode.Orbit
import StudyCode.PacketProcess
import StudyCode.PacketProcessGtp
import StudyCode.QuicInitial
import StudyCode.RateWr
import StudyCode.RegexCache
import StudyCode.Ring1Queue
import StudyCode.SimpBlkdev
import StudyCode.SortAll
import StudyCode.TestShare
import StudyCode.ThreadPoolStop
import StudyCode.Trunk
