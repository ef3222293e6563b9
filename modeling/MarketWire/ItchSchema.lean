import MarketWire.Protocolc

/-! The checked-in ITCH 5.0 schema, line by line, and the protocol compiled from it. -/
namespace MarketWire.Itch50
open Protocolc

def schemaLines : List String := [
  "protocol NasdaqITCH50;",
  "",
  "message SystemEvent \"S\" \x7b",
  "    stock_locate: u16_be;",
  "    tracking_number: u16_be;",
  "    timestamp: u48_be;",
  "    event_code: char;",
  "\x7d",
  "",
  "message StockDirectory \"R\" \x7b",
  "    stock_locate: u16_be;",
  "    tracking_number: u16_be;",
  "    timestamp: u48_be;",
  "    stock: ascii[8];",
  "    market_category: char;",
  "    financial_status_indicator: char;",
  "    round_lot_size: u32_be;",
  "    round_lots_only: char;",
  "    issue_classification: char;",
  "    issue_sub_type: ascii[2];",
  "    authenticity: char;",
  "    short_sale_threshold_indicator: char;",
  "    ipo_flag: char;",
  "    luld_reference_price_tier: char;",
  "    etp_flag: char;",
  "    etp_leverage_factor: u32_be;",
  "    inverse_indicator: char;",
  "\x7d",
  "",
  "message StockTradingAction \"H\" \x7b",
  "    stock_locate: u16_be;",
  "    tracking_number: u16_be;",
  "    timestamp: u48_be;",
  "    stock: ascii[8];",
  "    trading_state: char;",
  "    reserved: char;",
  "    reason: ascii[4];",
  "\x7d",
  "",
  "message RegShoRestriction \"Y\" \x7b",
  "    stock_locate: u16_be;",
  "    tracking_number: u16_be;",
  "    timestamp: u48_be;",
  "    stock: ascii[8];",
  "    reg_sho_action: char;",
  "\x7d",
  "",
  "message MarketParticipantPosition \"L\" \x7b",
  "    stock_locate: u16_be;",
  "    tracking_number: u16_be;",
  "    timestamp: u48_be;",
  "    mpid: ascii[4];",
  "    stock: ascii[8];",
  "    primary_market_maker: char;",
  "    market_maker_mode: char;",
  "    market_participant_state: char;",
  "\x7d",
  "",
  "message MwcbDeclineLevel \"V\" \x7b",
  "    stock_locate: u16_be;",
  "    tracking_number: u16_be;",
  "    timestamp: u48_be;",
  "    level1: price8;",
  "    level2: price8;",
  "    level3: price8;",
  "\x7d",
  "",
  "message MwcbStatus \"W\" \x7b",
  "    stock_locate: u16_be;",
  "    tracking_number: u16_be;",
  "    timestamp: u48_be;",
  "    breached_level: char;",
  "\x7d",
  "",
  "message IpoQuotingPeriodUpdate \"K\" \x7b",
  "    stock_locate: u16_be;",
  "    tracking_number: u16_be;",
  "    timestamp: u48_be;",
  "    stock: ascii[8];",
  "    ipo_quotation_release_time: u32_be;",
  "    ipo_quotation_release_qualifier: char;",
  "    ipo_price: price4;",
  "\x7d",
  "",
  "message LuldAuctionCollar \"J\" \x7b",
  "    stock_locate: u16_be;",
  "    tracking_number: u16_be;",
  "    timestamp: u48_be;",
  "    stock: ascii[8];",
  "    auction_collar_reference_price: price4;",
  "    upper_auction_collar_price: price4;",
  "    lower_auction_collar_price: price4;",
  "    auction_collar_extension: u32_be;",
  "\x7d",
  "",
  "message OperationalHalt \"h\" \x7b",
  "    stock_locate: u16_be;",
  "    tracking_number: u16_be;",
  "    timestamp: u48_be;",
  "    stock: ascii[8];",
  "    market_code: char;",
  "    operational_halt_action: char;",
  "\x7d",
  "",
  "message AddOrder \"A\" \x7b",
  "    stock_locate: u16_be;",
  "    tracking_number: u16_be;",
  "    timestamp: u48_be;",
  "    order_reference: u64_be;",
  "    side: char;",
  "    shares: u32_be;",
  "    stock: ascii[8];",
  "    price: price4;",
  "\x7d",
  "",
  "message AddOrderWithMpid \"F\" \x7b",
  "    stock_locate: u16_be;",
  "    tracking_number: u16_be;",
  "    timestamp: u48_be;",
  "    order_reference: u64_be;",
  "    side: char;",
  "    shares: u32_be;",
  "    stock: ascii[8];",
  "    price: price4;",
  "    attribution: ascii[4];",
  "\x7d",
  "",
  "message OrderExecuted \"E\" \x7b",
  "    stock_locate: u16_be;",
  "    tracking_number: u16_be;",
  "    timestamp: u48_be;",
  "    order_reference: u64_be;",
  "    executed_shares: u32_be;",
  "    match_number: u64_be;",
  "\x7d",
  "",
  "message OrderExecutedWithPrice \"C\" \x7b",
  "    stock_locate: u16_be;",
  "    tracking_number: u16_be;",
  "    timestamp: u48_be;",
  "    order_reference: u64_be;",
  "    executed_shares: u32_be;",
  "    match_number: u64_be;",
  "    printable: char;",
  "    execution_price: price4;",
  "\x7d",
  "",
  "message OrderCancel \"X\" \x7b",
  "    stock_locate: u16_be;",
  "    tracking_number: u16_be;",
  "    timestamp: u48_be;",
  "    order_reference: u64_be;",
  "    canceled_shares: u32_be;",
  "\x7d",
  "",
  "message OrderDelete \"D\" \x7b",
  "    stock_locate: u16_be;",
  "    tracking_number: u16_be;",
  "    timestamp: u48_be;",
  "    order_reference: u64_be;",
  "\x7d",
  "",
  "message OrderReplace \"U\" \x7b",
  "    stock_locate: u16_be;",
  "    tracking_number: u16_be;",
  "    timestamp: u48_be;",
  "    original_order_reference: u64_be;",
  "    new_order_reference: u64_be;",
  "    shares: u32_be;",
  "    price: price4;",
  "\x7d",
  "",
  "message Trade \"P\" \x7b",
  "    stock_locate: u16_be;",
  "    tracking_number: u16_be;",
  "    timestamp: u48_be;",
  "    order_reference: u64_be;",
  "    side: char;",
  "    shares: u32_be;",
  "    stock: ascii[8];",
  "    price: price4;",
  "    match_number: u64_be;",
  "\x7d",
  "",
  "message CrossTrade \"Q\" \x7b",
  "    stock_locate: u16_be;",
  "    tracking_number: u16_be;",
  "    timestamp: u48_be;",
  "    shares: u64_be;",
  "    stock: ascii[8];",
  "    cross_price: price4;",
  "    match_number: u64_be;",
  "    cross_type: char;",
  "\x7d",
  "",
  "message BrokenTrade \"B\" \x7b",
  "    stock_locate: u16_be;",
  "    tracking_number: u16_be;",
  "    timestamp: u48_be;",
  "    match_number: u64_be;",
  "\x7d",
  "",
  "message Noii \"I\" \x7b",
  "    stock_locate: u16_be;",
  "    tracking_number: u16_be;",
  "    timestamp: u48_be;",
  "    paired_shares: u64_be;",
  "    imbalance_shares: u64_be;",
  "    imbalance_direction: char;",
  "    stock: ascii[8];",
  "    far_price: price4;",
  "    near_price: price4;",
  "    current_reference_price: price4;",
  "    cross_type: char;",
  "    price_variation_indicator: char;",
  "\x7d",
  "",
  "message RetailInterest \"N\" \x7b",
  "    stock_locate: u16_be;",
  "    tracking_number: u16_be;",
  "    timestamp: u48_be;",
  "    stock: ascii[8];",
  "    interest_flag: char;",
  "\x7d",
  "",
  "message DirectListingCapitalRaise \"O\" \x7b",
  "    stock_locate: u16_be;",
  "    tracking_number: u16_be;",
  "    timestamp: u48_be;",
  "    stock: ascii[8];",
  "    open_eligibility_status: char;",
  "    minimum_allowable_price: price4;",
  "    maximum_allowable_price: price4;",
  "    near_execution_price: price4;",
  "    near_execution_time: u64_be;",
  "    lower_price_range_collar: price4;",
  "    upper_price_range_collar: price4;",
  "\x7d"]

/-- The file `itch50.efe`. -/
def schema : Bytes := schemaLines.flatMap fun line => text line++[newline]

/-- A message with its fields laid out one after another. -/
def message (name : String) (type : Char) (fields : List (String × FieldType × UInt64)) : Message :=
  fields.foldl (fun m f => m.push (text f.1) f.2.1 f.2.2) ⟨text name,type.toUInt8,[],1⟩

def char (name : String) : String × FieldType × UInt64 := (name,.char,1)
def u16 (name : String) : String × FieldType × UInt64 := (name,.u16Be,2)
def u32 (name : String) : String × FieldType × UInt64 := (name,.u32Be,4)
def u48 (name : String) : String × FieldType × UInt64 := (name,.u48Be,6)
def u64 (name : String) : String × FieldType × UInt64 := (name,.u64Be,8)
def price4 (name : String) : String × FieldType × UInt64 := (name,.price4,4)
def price8 (name : String) : String × FieldType × UInt64 := (name,.price8,8)
def ascii (name : String) (width : UInt64) : String × FieldType × UInt64 := (name,.ascii,width)

/-- The fields that every message starts with. -/
def common : List (String × FieldType × UInt64) :=
  [u16 "stock_locate",u16 "tracking_number",u48 "timestamp"]

def systemEvent : Message := message "SystemEvent" 'S' (common++[char "event_code"])

def stockDirectory : Message := message "StockDirectory" 'R' (common++[
  ascii "stock" 8,char "market_category",char "financial_status_indicator",u32 "round_lot_size",
  char "round_lots_only",char "issue_classification",ascii "issue_sub_type" 2,char "authenticity",
  char "short_sale_threshold_indicator",char "ipo_flag",char "luld_reference_price_tier",
  char "etp_flag",u32 "etp_leverage_factor",char "inverse_indicator"])

def stockTradingAction : Message := message "StockTradingAction" 'H' (common++[
  ascii "stock" 8,char "trading_state",char "reserved",ascii "reason" 4])

def regShoRestriction : Message := message "RegShoRestriction" 'Y' (common++[
  ascii "stock" 8,char "reg_sho_action"])

def marketParticipantPosition : Message := message "MarketParticipantPosition" 'L' (common++[
  ascii "mpid" 4,ascii "stock" 8,char "primary_market_maker",char "market_maker_mode",
  char "market_participant_state"])

def mwcbDeclineLevel : Message := message "MwcbDeclineLevel" 'V' (common++[
  price8 "level1",price8 "level2",price8 "level3"])

def mwcbStatus : Message := message "MwcbStatus" 'W' (common++[char "breached_level"])

def ipoQuotingPeriodUpdate : Message := message "IpoQuotingPeriodUpdate" 'K' (common++[
  ascii "stock" 8,u32 "ipo_quotation_release_time",char "ipo_quotation_release_qualifier",
  price4 "ipo_price"])

def luldAuctionCollar : Message := message "LuldAuctionCollar" 'J' (common++[
  ascii "stock" 8,price4 "auction_collar_reference_price",price4 "upper_auction_collar_price",
  price4 "lower_auction_collar_price",u32 "auction_collar_extension"])

def operationalHalt : Message := message "OperationalHalt" 'h' (common++[
  ascii "stock" 8,char "market_code",char "operational_halt_action"])

def addOrder : Message := message "AddOrder" 'A' (common++[
  u64 "order_reference",char "side",u32 "shares",ascii "stock" 8,price4 "price"])

def addOrderWithMpid : Message := message "AddOrderWithMpid" 'F' (common++[
  u64 "order_reference",char "side",u32 "shares",ascii "stock" 8,price4 "price",
  ascii "attribution" 4])

def orderExecuted : Message := message "OrderExecuted" 'E' (common++[
  u64 "order_reference",u32 "executed_shares",u64 "match_number"])

def orderExecutedWithPrice : Message := message "OrderExecutedWithPrice" 'C' (common++[
  u64 "order_reference",u32 "executed_shares",u64 "match_number",char "printable",
  price4 "execution_price"])

def orderCancel : Message := message "OrderCancel" 'X' (common++[
  u64 "order_reference",u32 "canceled_shares"])

def orderDelete : Message := message "OrderDelete" 'D' (common++[u64 "order_reference"])

def orderReplace : Message := message "OrderReplace" 'U' (common++[
  u64 "original_order_reference",u64 "new_order_reference",u32 "shares",price4 "price"])

def trade : Message := message "Trade" 'P' (common++[
  u64 "order_reference",char "side",u32 "shares",ascii "stock" 8,price4 "price",
  u64 "match_number"])

def crossTrade : Message := message "CrossTrade" 'Q' (common++[
  u64 "shares",ascii "stock" 8,price4 "cross_price",u64 "match_number",char "cross_type"])

def brokenTrade : Message := message "BrokenTrade" 'B' (common++[u64 "match_number"])

def noii : Message := message "Noii" 'I' (common++[
  u64 "paired_shares",u64 "imbalance_shares",char "imbalance_direction",ascii "stock" 8,
  price4 "far_price",price4 "near_price",price4 "current_reference_price",char "cross_type",
  char "price_variation_indicator"])

def retailInterest : Message := message "RetailInterest" 'N' (common++[
  ascii "stock" 8,char "interest_flag"])

def directListingCapitalRaise : Message := message "DirectListingCapitalRaise" 'O' (common++[
  ascii "stock" 8,char "open_eligibility_status",price4 "minimum_allowable_price",
  price4 "maximum_allowable_price",price4 "near_execution_price",u64 "near_execution_time",
  price4 "lower_price_range_collar",price4 "upper_price_range_collar"])

def protocol : Protocol := ⟨text "NasdaqITCH50",[
  systemEvent,stockDirectory,stockTradingAction,regShoRestriction,marketParticipantPosition,
  mwcbDeclineLevel,mwcbStatus,ipoQuotingPeriodUpdate,luldAuctionCollar,operationalHalt,addOrder,
  addOrderWithMpid,orderExecuted,orderExecutedWithPrice,orderCancel,orderDelete,orderReplace,
  trade,crossTrade,brokenTrade,noii,retailInterest,directListingCapitalRaise]⟩

/-- What the schema compiler makes of the schema. -/
theorem parse_schema : parse schema=.ok protocol := by decide +kernel

end MarketWire.Itch50
