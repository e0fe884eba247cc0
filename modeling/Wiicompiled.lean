import Wiicompiled.Analysis.GuestAbiTermination
import Wiicompiled.Analysis.GuestStateLivenessSoundness
import Wiicompiled.Translation.CanonicalIrRoundTrip
import Wiicompiled.Parsing.RelRelocation
import Wiicompiled.Mods.StaticApplication
import Wiicompiled.Translation.GqrClosedWorld
import Wiicompiled.Translation.LeafInlineMemo
import Wiicompiled.CodeGen.GuestAbiPrewarm
import Wiicompiled.Runtime.MessageQueueRuns
import Wiicompiled.Runtime.ExecutableAliases
import Wiicompiled.Storage.DvdReads
import Wiicompiled.Runtime.DeferredNetworkSafety
import Wiicompiled.Voice.JitterBufferRuns
import Wiicompiled.Voice.VolumePolicy
import Wiicompiled.Audio.AuxPublication
import Wiicompiled.Output.DirectoryPublication
import Wiicompiled.CodeGen.GpuFifoBurstExact
import Wiicompiled.CodeGen.AddressConstantsSound
import Wiicompiled.CodeGen.GqrHoistingCoherent
import Wiicompiled.CodeGen.GuestMemoryRangeSound
import Wiicompiled.Parsing.KamekRoundTrip
import Wiicompiled.Audio.ResampleChunks
import Wiicompiled.Gx.RecordedLists
import Wiicompiled.Storage.NandRoot
import Wiicompiled.Gx.TexObjInvalidation
import Wiicompiled.Mods.BaseManifestExact
import Wiicompiled.Gx.VertexAgreement
import Wiicompiled.Riivolution.PatchPaths
import Wiicompiled.Riivolution.NumericAttributes
import Wiicompiled.Egg.Yaz0Expansion
import Wiicompiled.Runtime.DnsAddressChain
import Wiicompiled.Runtime.AlarmQueueRuns
import Wiicompiled.Storage.U8Extraction
import Wiicompiled.Storage.NandMoveAtomic
import Wiicompiled.Audio.MixKernelsAgree
import Wiicompiled.Runtime.ThreadExitAgree
import Wiicompiled.Runtime.SleepAccounts
import Wiicompiled.Voice.IceSignalRoundTrip
import Wiicompiled.Voice.SpscRingBufferFifo
import Wiicompiled.Analysis.SsaFrontier
import Wiicompiled.Translation.BasicBlocks
import Wiicompiled.Analysis.CallComponentsExact
import Wiicompiled.Input.InputExprText
import Wiicompiled.Disassembly.ListedReached
import Wiicompiled.Disassembly.BudgetIndependence
