import SaltsUtils.QueryVm.Soundness
import SaltsUtils.BehaviorTree.Brackets
import SaltsUtils.BehaviorTree.Restart
import SaltsUtils.BehaviorTree.RunToCompletion
import SaltsUtils.Csv.RoundTrip
import SaltsUtils.Csv.Iterator
import SaltsUtils.Dsv.Planner
import SaltsUtils.Ltv.Conservation
import SaltsUtils.Modbus.Integrity
import SaltsUtils.Modbus.Delivery
import SaltsUtils.Tlv.Integrity
import SaltsUtils.Tlv.Delivery
import SaltsUtils.Tlv.Pool
import SaltsUtils.Binary.OverlayLayout
import SaltsUtils.Selector.Recompiled
import SaltsUtils.Json.CSerdeReader
import SaltsUtils.Xml.SaxTree
import SaltsUtils.Csv.StreamAligned
import SaltsUtils.Mustache.Rendered
import SaltsUtils.Csv.StringLiteral
import SaltsUtils.Csv.StreamFilters
import SaltsUtils.Cron.TableLoaders
import SaltsUtils.Cron.FieldDocumented
import SaltsUtils.Cron.Zones
import SaltsUtils.Binary.LayoutIndependent
import SaltsUtils.BehaviorTree.RunOnce
import SaltsUtils.JsonPath.Slice
import SaltsUtils.Selector.Memory
import SaltsUtils.Soa.Batches
import SaltsUtils.Json.Building
import SaltsUtils.Toon.Indentation
import SaltsUtils.Toon.Conversions
import SaltsUtils.Toml.Exactness
import SaltsUtils.Cmd.ResponseFiles
import SaltsUtils.Cmd.Positionals
import SaltsUtils.Yaml.PathSlice
import SaltsUtils.DataBind.Fingerprint
import SaltsUtils.Dotenv.Substitution
import SaltsUtils.Jinja.Scopes
import SaltsUtils.Jinja.FloatRound
import SaltsUtils.DataBind.EnumValues
import SaltsUtils.DataBind.TypeExpressions
import SaltsUtils.DataBind.CsvProvider
import SaltsUtils.Csv.DelimiterScan
import SaltsUtils.Json.LexerVectors
import SaltsUtils.DatetimeParser.Conversion
