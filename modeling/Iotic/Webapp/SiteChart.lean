import Iotic.Webapp.DayChart
import Iotic.Webapp.SiteCard

/-!
# The chart of the site (chart_controller.dart, fetchSiteData)

The lines of the site are sums: of all channels of all inverters, of all smart meters,
and of the two.
-/

namespace Iotic.Webapp
open ByteString Iotic.Common Iotic.Database Iotic.Database.DatabasePrivate Iotic.Webserver

namespace ChartController

def height (spots : List FlSpot) (j : ℕ) : ℤ := (spots[j]?.map FlSpot.y).getD 0

/- The height of all channels of all things. -/
def total (data : List (List (List FlSpot))) (j : ℕ) : ℤ :=
  (data.flatten.map fun channel => height channel j).sum

end ChartController
end Iotic.Webapp
