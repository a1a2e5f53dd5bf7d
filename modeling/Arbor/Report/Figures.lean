import Arbor.Assembly.Structure
import Arbor.Decimal.Notation
import Arbor.Text.Padding

namespace Arbor

namespace Metrics

def lines (m : Metrics Float) : List String := [
  "Leaves placed       : " ++ toString m.leaves,
  "Leaves rejected     : " ++ toString m.rejectedLeaves,
  "Branch segments     : " ++ toString m.branches,
  "Sensitive area (m2) : " ++ fixed 6 m.sensitiveArea,
  "Reach (m)           : x " ++ fixed 3 m.reach.x ++ ", y " ++ fixed 3 m.reach.y ++ ", z " ++
    fixed 3 m.reach.z,
  "World radius (m)    : " ++ fixed 3 m.worldRadius]

end Metrics

namespace MaterialSummary

def row (material volumes area : String) : String :=
  padRight 16 material ++ " " ++ padLeft 8 volumes ++ " " ++ padLeft 14 area

def lines (m : MaterialSummary Float) : List String :=
  row "Material" "Volumes" "Area (m2)" ::
    m.totals.map (fun t => row t.material (toString t.volumes) (fixed 6 t.area)) ++
    ["Leaf facets: " ++ toString m.facets]

end MaterialSummary

def Structure.lines (s : Structure Float) : List String :=
  s.metrics.lines ++ "" :: s.summary.2.lines

end Arbor
