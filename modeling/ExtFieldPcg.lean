import ExtFieldPcg.EaCode
import ExtFieldPcg.EncodeTests
import ExtFieldPcg.GF128Portable
import ExtFieldPcg.NoiseVals
import ExtFieldPcg.Ole
import ExtFieldPcg.OleIndex
import ExtFieldPcg.OleUnrolled
import ExtFieldPcg.PprfRuns
import ExtFieldPcg.QaCode
import ExtFieldPcg.RaaCode
import ExtFieldPcg.SilentSendRuns
import ExtFieldPcg.VoleDebug
import ExtFieldPcg.VoleLength
import ExtFieldPcg.VoleLpn
import ExtFieldPcg.VoleMalicious
import ExtFieldPcg.VoleQasd
import ExtFieldPcg.VoleRuns
