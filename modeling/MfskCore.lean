import MfskCore.App.ActivatorRecords
import MfskCore.App.ActivatorWindow
import MfskCore.App.CaptureWindow
import MfskCore.App.CivReader
import MfskCore.App.CivilTime
import MfskCore.App.FormEncoding
import MfskCore.App.LogFanout
import MfskCore.App.QsoFrame
import MfskCore.App.QsoReport
import MfskCore.App.QsoRuns
import MfskCore.Embedded.GridPhase
import MfskCore.Embedded.GridState
import MfskCore.Embedded.SlotGridRuns
import MfskCore.Engine.FrameLink
import MfskCore.Engine.SpecScalar
import MfskCore.Fec.BpReuse
import MfskCore.Fec.Crc
import MfskCore.Fec.FanoNoiseFree
import MfskCore.Fec.FanoScratch
import MfskCore.Fec.HardErrors
import MfskCore.Fec.LdpcCode
import MfskCore.Fec.LdpcNoiseFree
import MfskCore.Fec.MinSum
import MfskCore.Fec.NmsKind
import MfskCore.Fec.Npfwht
import MfskCore.Fec.Osd
import MfskCore.Fec.OsdBasis
import MfskCore.Fec.OsdNpre1
import MfskCore.Fec.OsdNpre2
import MfskCore.Fec.OsdReference
import MfskCore.Fec.OsdSearch
import MfskCore.Fec.QraGraph
import MfskCore.Fec.RsChecked
import MfskCore.Fec.RsDecoder
import MfskCore.Fec.RunningSum
import MfskCore.Fec.SoftDecode
import MfskCore.Jt65.Scan
import MfskCore.Library.Checked
import MfskCore.Library.Echelon
import MfskCore.Library.ErrorLocator
import MfskCore.Library.LeastSquares
import MfskCore.Library.LinearFold
import MfskCore.Library.WordRow
import MfskCore.Msg.Ap
import MfskCore.Msg.Callsign28
import MfskCore.Msg.Callsign28Tables
import MfskCore.Msg.HashTableChecked
import MfskCore.Msg.HashTableSmall
import MfskCore.Msg.Jt72
import MfskCore.Msg.PacketBytes
import MfskCore.Msg.PipelineAp
import MfskCore.Msg.StandardGrammar
import MfskCore.Msg.TableIndependence
import MfskCore.Msg.Wsjt77Checked
import MfskCore.Msg.Wsjt77CheckedLearn
import MfskCore.Msg.Wsjt77FreeText
import MfskCore.Msg.Wsjt77Type4
import MfskCore.Msg.Wspr
import MfskCore.Msg.WsprRoundTrip
import MfskCore.Uvpacket.Equaliser
import MfskCore.Uvpacket.Link
import MfskCore.Wspr.Osd
import MfskCore.Wspr.OsdPacked
